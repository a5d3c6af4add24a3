import SheetFormula.Proofs.Compiling
import SheetFormula.Proofs.Fusion
import SheetFormula.Proofs.Generation
import SheetFormula.Proofs.Scan

/-!
Direct evaluation of a tree. Operands are evaluated from left to right before the operation that takes
them, every leaf stands for its own text or value, and the surroundings are asked on the way. The code
that is generated from a tree makes the same requests in the same order, so running a formula is
evaluating its tree.
-/

set_option autoImplicit false

namespace SheetFormula

/-- Why surroundings give no value. -/
inductive Refusal (ε : Type) where
  | unknown (name : String)
  | missing (resource : Resource)
  | raised (error : ε)

/-- A refusal as the run of a formula reports it. -/
def Refusal.toFailure {ε : Type} : Refusal ε → Failure ε
  | .unknown name => .fault ⟨.unknownFunction, .noImplementation name, -1, "", none⟩
  | .missing resource => .missing resource
  | .raised error => .raised error

/-- How far an evaluation is: whether a mark for the debugger has been passed, and how many marks,
requests and arrays there have been. -/
structure Progress where
  debugging : Bool := false
  steps : Nat := 0

/-- Evaluations keep count of their progress and end at the first refusal. -/
abbrev Evaluation (m : Type → Type) (ε : Type) := StateT Progress (ExceptT (Refusal ε) m)

/-- What an evaluation is given besides the tree. A mark is told to `onMark` with the number of steps
before it, then to the surroundings with the formula in normal form. -/
structure Setting (m : Type → Type) (ε α : Type) where
  registry : Registry
  targeting : Targeting
  surroundings : Surroundings m ε α
  normalForm : String
  onMark : Nat → m Unit

namespace Evaluation

open Generate (Context declaredContexts)

variable {m : Type → Type} [Monad m] {ε α : Type}

def count : Evaluation m ε Unit :=
  modify fun p => { p with steps := p.steps + 1 }

/-- Makes a request, which is told whether the debugger has been reached. -/
def ask (refusal : Refusal ε) (request : Option (Bool → m (Except ε (Value α)))) :
    Evaluation m ε (Value α) :=
  match request with
  | none => throw refusal
  | some request => do
    match ← request (← get).debugging with
    | .ok value =>
      count
      return value
    | .error e => throw (.raised e)

/-- Calls a function. -/
def call (x : Setting m ε α) (name : String) (arguments : List (Value α)) :
    Evaluation m ε (Value α) :=
  ask (.unknown name)
    ((x.surroundings.function name).map fun f debugging => f debugging arguments)

/-- The value of a leaf. -/
def leaf (x : Setting m ε α) (context : Context) (l : Label) : Atom → Evaluation m ε (Value α)
  | .number value => return .number value
  | .string => return .text l.text
  | .boolean value => return .boolean value
  | .reference =>
    if context.asRange || Expr.namesRange l.text then
      ask (.missing .range)
        (x.surroundings.range.map fun f debugging => f debugging l.text context.bare)
    else
      ask (.missing .cell)
        (x.surroundings.cell.map fun f debugging => f debugging l.text context.bare)
  | .symbol =>
    ask (.missing .symbol)
      (x.surroundings.symbol.map fun f debugging => f debugging (Literal.unquote l.text))
  | .empty | .other _ => return .empty

/-- Passes the mark of a node, if it has one. -/
def announce (x : Setting m ε α) (l : Label) : Evaluation m ε Unit := do
  if l.debug then
    x.onMark (← get).steps
    match x.surroundings.onDebug with
    | some f => f x.normalForm
    | none => pure ()
    modify fun p => ⟨true, p.steps + 1⟩

mutual

/-- The value of a tree. -/
def expr (x : Setting m ε α) (context : Context) : Expr → Evaluation m ε (Value α)
  | .leaf l a => do
    announce x l
    leaf x context l a
  | .unary l _ e => do
    announce x l
    let value ← expr x {} e
    call x (Generate.unaryName l.text) [value]
  | .binary l a b => do
    announce x l
    let left ← expr x {} a
    let right ← expr x {} b
    call x ((Generate.binaryName? l.text).getD "") [left, right]
  | .call l as => do
    announce x l
    let values ← exprs x
      (declaredContexts x.registry x.targeting (Text.upper l.text) as.length) 0 as
    call x (Text.upper l.text) values
  | .array l rs => do
    announce x l
    let values ← rows x rs
    count
    return .matrix values

/-- The values of several trees, each in the context for its position. -/
def exprs (x : Setting m ε α) (contexts : Nat → Context) (position : Nat) :
    List Expr → Evaluation m ε (List (Value α))
  | [] => return []
  | e :: es => do
    let value ← expr x (contexts position) e
    let values ← exprs x contexts (position + 1) es
    return value :: values

/-- The values of the rows of an array. -/
def rows (x : Setting m ε α) : List (List Expr) → Evaluation m ε (List (List (Value α)))
  | [] => return []
  | r :: rs => do
    let values ← exprs x (fun _ => {}) 0 r
    let rest ← rows x rs
    return values :: rest

end

/-! ### Going on after an evaluation -/

variable {β γ : Type}

/-- Goes on with the value of an evaluation; a refusal ends the run. -/
def resume (x : Evaluation m ε β) (progress : Progress)
    (k : β → Progress → m (Except (Failure ε) (Value α))) : m (Except (Failure ε) (Value α)) := do
  match ← (x.run progress).run with
  | .ok (v, progress) => k v progress
  | .error e => pure (.error e.toFailure)

/-- What a run gets for a request. -/
def reply (refusal : Refusal ε) (request : Option (Bool → m (Except ε (Value α))))
    (debugging : Bool) : m (Except (Failure ε) (Value α)) :=
  match request with
  | none => pure (.error refusal.toFailure)
  | some request => do
    match ← request debugging with
    | .ok v => pure (.ok v)
    | .error e => pure (.error (.raised e))

theorem request_eq_reply {φ : Type} (resource : Resource) (resolver : Option φ)
    (request : φ → Bool → String → m (Except ε (Value α))) (text : String) (debugging : Bool) :
    Run.request resource (resolver.map fun f s => request f debugging s) (some text) =
      reply (.missing resource) (resolver.map fun f debugging => request f debugging text)
        debugging := by
  cases resolver <;> rfl

theorem callFunction_eq_reply
    (function : Option (Bool → List (Value α) → m (Except ε (Value α)))) (name : String)
    (arguments : List (Value α)) (debugging : Bool) :
    Run.callFunction (function.map fun f => f debugging) name (some arguments) =
      reply (.unknown name) (function.map fun f debugging => f debugging arguments) debugging := by
  cases function <;> rfl

variable [LawfulMonad m]

theorem resume_pure (v : β) (progress : Progress)
    (k : β → Progress → m (Except (Failure ε) (Value α))) :
    resume (pure v) progress k = k v progress := by
  simp [resume]

theorem resume_bind (x : Evaluation m ε β) (f : β → Evaluation m ε γ) (progress : Progress)
    (k : γ → Progress → m (Except (Failure ε) (Value α))) :
    resume (x >>= f) progress k =
      resume x progress fun v progress => resume (f v) progress k := by
  simp only [resume, StateT.run_bind, ExceptT.run_bind, bind_assoc]
  refine bind_congr fun r => ?_
  cases r with
  | ok v => rfl
  | error e => simp

theorem resume_get (progress : Progress)
    (k : Progress → Progress → m (Except (Failure ε) (Value α))) :
    resume get progress k = k progress progress := by
  simp [resume]

theorem resume_modify (f : Progress → Progress) (progress : Progress)
    (k : Unit → Progress → m (Except (Failure ε) (Value α))) :
    resume (modify f) progress k = k () (f progress) := by
  simp [resume]

theorem resume_throw (refusal : Refusal ε) (progress : Progress)
    (k : β → Progress → m (Except (Failure ε) (Value α))) :
    resume (throw refusal) progress k = pure (.error refusal.toFailure) := by
  simp [resume]

theorem resume_lift (x : m β) (progress : Progress)
    (k : β → Progress → m (Except (Failure ε) (Value α))) :
    resume (liftM x) progress k = x >>= fun v => k v progress := by
  simp [resume, liftM, Except.map]

/-- A request of an evaluation is what a run asks for. -/
theorem resume_ask (refusal : Refusal ε) (request : Bool → m (Except ε (Value α)))
    (progress : Progress) (k : Value α → Progress → m (Except (Failure ε) (Value α))) :
    resume (ask refusal (some request)) progress k =
      request progress.debugging >>= fun
        | .ok v => k v { progress with steps := progress.steps + 1 }
        | .error e => pure (.error (.raised e)) := by
  simp only [ask, resume_bind, resume_get, resume_lift]
  refine bind_congr fun r => ?_
  cases r with
  | ok v => simp only [count, resume_bind, resume_modify, resume_pure]
  | error e => exact resume_throw ..

theorem resume_end (x : Evaluation m ε (Value α)) (progress : Progress) :
    resume x progress (fun v _ => pure (.ok v)) =
      Except.mapError Refusal.toFailure <$> (x.run' progress).run := by
  rw [StateT.run'_eq, ExceptT.run_map, Functor.map_map, map_eq_pure_bind, resume]
  refine bind_congr fun r => ?_
  cases r <;> rfl

/-! ### One instruction -/

/-- Runs code with the progress that an evaluation counts. -/
def continueRun (x : Setting m ε α) (inputs : Inputs) (result : Operand) (progress : Progress)
    (slots : Run.Slots α) (code : List Instruction) : m (Except (Failure ε) (Value α)) :=
  Run.code x.surroundings inputs x.normalForm x.onMark result progress.steps progress.debugging
    slots code

variable {x : Setting m ε α} {inputs : Inputs} {result : Operand} {progress : Progress}
  {slots : Run.Slots α}

/-- An instruction that asks is a request of the evaluation. -/
theorem continueRun_ask {i : Instruction} {slot : Nat} {refusal : Refusal ε}
    {request : Option (Bool → m (Except ε (Value α)))} (rest : List Instruction)
    (h : Run.value x.surroundings inputs progress.debugging slots i =
      some (slot, reply refusal request progress.debugging)) :
    continueRun x inputs result progress slots (i :: rest) =
      resume (ask refusal request) progress fun v progress =>
        continueRun x inputs result progress ((slot, v) :: slots) rest := by
  rw [continueRun, Run.code, h]
  cases request with
  | none =>
    rw [ask, resume_throw]
    simp [reply]
  | some request =>
    rw [resume_ask]
    simp only [reply, bind_assoc]
    refine bind_congr fun r => ?_
    cases r with
    | ok v => simp only [pure_bind]; rfl
    | error e => simp only [pure_bind]

theorem continueRun_call {slot : Nat} {name : String} {arguments : List Operand}
    {values : List (Value α)} (rest : List Instruction)
    (h : Run.operands? inputs slots arguments = some values) :
    continueRun x inputs result progress slots (.call slot name arguments :: rest) =
      resume (call x name values) progress fun v progress =>
        continueRun x inputs result progress ((slot, v) :: slots) rest := by
  refine continueRun_ask rest ?_
  rw [Run.value, h, callFunction_eq_reply]

theorem continueRun_array {slot columns : Nat} {cells : List Operand} {values : List (Value α)}
    (rest : List Instruction) (h : Run.operands? inputs slots cells = some values) :
    continueRun x inputs result progress slots (.array slot columns cells :: rest) =
      resume count progress fun _ progress =>
        continueRun x inputs result progress
          ((slot, .matrix (rowsOf columns values)) :: slots) rest := by
  rw [continueRun, Run.code, Run.value, h, count, resume_modify]
  simp only [pure_bind]
  rfl

theorem continueRun_announce (l : Label) (p : Generate.Piece) (rest : List Instruction) :
    continueRun x inputs result progress slots ((Generate.announce l p).code ++ rest) =
      resume (announce x l) progress fun _ progress =>
        continueRun x inputs result progress slots (p.code ++ rest) := by
  unfold Generate.announce announce
  split
  · rw [List.cons_append, continueRun, Run.code, Run.value]
    simp only [resume_bind, resume_get, resume_lift]
    refine bind_congr fun _ => ?_
    cases x.surroundings.onDebug with
    | none => rw [resume_modify]; rfl
    | some f =>
      rw [resume_bind, resume_lift]
      simp only [resume_modify]
      rfl
  · rw [resume_pure]

/-! ### Slots -/

/-- Slots up to a bound are as they were. -/
def Keeps (bound : Nat) (slots slots' : Run.Slots α) : Prop :=
  ∀ i ≤ bound, slots'.lookup i = slots.lookup i

theorem Keeps.refl (bound : Nat) (slots : Run.Slots α) : Keeps bound slots slots :=
  fun _ _ => rfl

theorem Keeps.trans {b b' : Nat} {slots slots' slots'' : Run.Slots α} (hb : b ≤ b')
    (h : Keeps b slots slots') (h' : Keeps b' slots' slots'') : Keeps b slots slots'' :=
  fun i hi => (h' i (Nat.le_trans hi hb)).trans (h i hi)

theorem Keeps.cons {b slot : Nat} (h : b < slot) (v : Value α) (slots : Run.Slots α) :
    Keeps b slots ((slot, v) :: slots) := by
  intro i hi
  have hne : (i == slot) = false := by
    rw [beq_eq_false_iff_ne]
    omega
  rw [List.lookup_cons, hne]

theorem Keeps.operand? {bound : Nat} {slots slots' : Run.Slots α} (h : Keeps bound slots slots')
    {o : Operand} (ho : o.IsFilled bound) :
    Run.operand? inputs slots' o = Run.operand? inputs slots o := by
  cases o with
  | slot index => exact h index ho
  | _ => rfl

/-! ### Rows of an array -/

theorem rowsOf_append {columns : Nat} {cells rest : List β} (hpos : 0 < columns)
    (h : cells.length = columns) : rowsOf columns (cells ++ rest) = cells :: rowsOf columns rest := by
  have hsize : columns - 1 + 1 = columns := by omega
  have hlt : columns - 1 < (cells ++ rest).length := by
    rw [List.length_append]
    omega
  rw [rowsOf, groups, dif_pos hlt]
  simp only [hsize]
  rw [← h, List.take_left, List.drop_left]
  rfl

omit [LawfulMonad m] in
theorem exprs_cons (contexts : Nat → Context) (position : Nat) (e : Expr) (es : List Expr) :
    exprs x contexts position (e :: es) = do
      let value ← expr x (contexts position) e
      let values ← exprs x contexts (position + 1) es
      return value :: values := by
  rw [exprs]

/-- There are as many values as trees. -/
theorem resume_exprs_congr {contexts : Nat → Context} {position : Nat} {es : List Expr}
    {k k' : List (Value α) → Progress → m (Except (Failure ε) (Value α))}
    (h : ∀ values progress, values.length = es.length → k values progress = k' values progress) :
    resume (exprs x contexts position es) progress k =
      resume (exprs x contexts position es) progress k' := by
  induction es generalizing position progress k k' with
  | nil =>
    rw [exprs, resume_pure, resume_pure]
    exact h [] progress rfl
  | cons e es ih =>
    simp only [exprs_cons, resume_bind, resume_pure]
    congr 1
    funext value progress
    exact ih fun values progress hlength => h _ _ (by simp [hlength])

omit [LawfulMonad m] in
theorem exprs_position (position position' : Nat) (es : List Expr) :
    exprs x (fun _ => {}) position es = exprs x (fun _ => {}) position' es := by
  induction es generalizing position position' with
  | nil => rw [exprs, exprs]
  | cons e es ih => rw [exprs_cons, exprs_cons, ih]

theorem resume_exprs_append (es fs : List Expr)
    (k : List (Value α) → Progress → m (Except (Failure ε) (Value α))) :
    resume (exprs x (fun _ => {}) 0 (es ++ fs)) progress k =
      resume (exprs x (fun _ => {}) 0 es) progress fun values progress =>
        resume (exprs x (fun _ => {}) 0 fs) progress fun rest => k (values ++ rest) := by
  induction es generalizing progress k with
  | nil =>
    rw [exprs, resume_pure]
    rfl
  | cons e es ih =>
    simp only [List.cons_append, exprs_cons, resume_bind, resume_pure]
    congr 1
    funext value progress
    rw [exprs_position _ 0, ih, exprs_position 0 (0 + 1) es]

/-- The rows of an array are its cells in groups. -/
theorem resume_rows {columns : Nat} {rs : List (List Expr)} (hpos : 0 < columns)
    (h : ∀ r ∈ rs, r.length = columns)
    (k : List (List (Value α)) → Progress → m (Except (Failure ε) (Value α))) :
    resume (rows x rs) progress k =
      resume (exprs x (fun _ => {}) 0 rs.flatten) progress fun values =>
        k (rowsOf columns values) := by
  induction rs generalizing progress k with
  | nil =>
    have hnil : rowsOf columns ([] : List (Value α)) = [] := by
      rw [rowsOf, groups, dif_neg (by simp)]
    rw [rows, List.flatten_nil, exprs, resume_pure, resume_pure, hnil]
  | cons r rs ih =>
    obtain ⟨hr, hrs⟩ := List.forall_mem_cons.mp h
    rw [List.flatten_cons, resume_exprs_append, rows, resume_bind]
    refine resume_exprs_congr fun values progress hlength => ?_
    rw [resume_bind, ih hrs]
    refine resume_exprs_congr fun rest progress _ => ?_
    rw [resume_pure, rowsOf_append hpos (hlength.trans hr)]

/-! ### Code and tree -/

/-- The code that is generated from a tree does what evaluating the tree does, whatever comes next. -/
def Simulates (x : Setting m ε α) (inputs : Inputs) (result : Operand) (e : Expr) : Prop :=
  ∀ (context : Context) (c : Generate.Counters) (p : Generate.Piece) (post : List (String × Atom))
    (progress : Progress) (slots : Run.Slots α) (rest : List Instruction)
    (k : Value α → Progress → m (Except (Failure ε) (Value α))),
    Generate.expr x.registry x.targeting context c e = .ok p →
    c.Serves inputs (e.contents ++ post) →
    (∀ v progress slots', Keeps c.slots slots slots' →
      Run.operand? inputs slots' p.result = some v →
      continueRun x inputs result progress slots' rest = k v progress) →
    continueRun x inputs result progress slots (p.code ++ rest) =
      resume (expr x context e) progress k

theorem operands?_cons {o : Operand} {os : List Operand} {v : Value α} {vs : List (Value α)}
    (ho : Run.operand? inputs slots o = some v) (hos : Run.operands? inputs slots os = some vs) :
    Run.operands? inputs slots (o :: os) = some (v :: vs) := by
  rw [Run.operands?, ho, hos]

/-- A sequence does what evaluating its trees one after the other does. -/
theorem continueRun_sequence {contexts : Nat → Context} {position : Nat} {c : Generate.Counters}
    {es : List Expr} {ps : Generate.Pieces} {post : List (String × Atom)}
    {rest : List Instruction} {k : List (Value α) → Progress → m (Except (Failure ε) (Value α))}
    (h : Generate.Sequence x.registry x.targeting contexts position c es ps)
    (hes : ∀ e ∈ es, Simulates x inputs result e)
    (hserves : c.Serves inputs (Expr.contentsOf es ++ post))
    (hk : ∀ values progress slots', Keeps c.slots slots slots' →
      Run.operands? inputs slots' ps.results = some values →
      continueRun x inputs result progress slots' rest = k values progress) :
    continueRun x inputs result progress slots (ps.code ++ rest) =
      resume (exprs x contexts position es) progress k := by
  induction h generalizing progress slots k with
  | nil position c =>
    rw [exprs, resume_pure]
    exact hk [] progress slots (.refl _ _) rfl
  | @cons position c e es p ps head tail ih =>
    obtain ⟨he, hes⟩ := List.forall_mem_cons.mp hes
    rw [Expr.contentsOf_cons, List.append_assoc] at hserves
    obtain ⟨hslots, hadvance⟩ := Generate.advances_of_expr head
    rw [exprs_cons, resume_bind, List.append_assoc]
    refine he _ _ _ _ _ _ _ _ head hserves fun v progress slots' hkeeps hv => ?_
    rw [resume_bind]
    refine ih hes (hadvance _ _ hserves) fun values progress slots'' hkeeps' hvalues => ?_
    rw [resume_pure]
    refine hk _ _ _ (hkeeps.trans hslots hkeeps') (operands?_cons ?_ hvalues)
    rw [hkeeps'.operand? (Generate.isFilled_of_expr head), hv]

theorem operand?_slot (slot : Nat) (v : Value α) (slots : Run.Slots α) :
    Run.operand? inputs ((slot, v) :: slots) (.slot slot) = some v := by
  rw [Run.operand?, List.lookup_cons, beq_self_eq_true]

omit [LawfulMonad m] in
/-- What follows an instruction finds its value in the slot that it fills. -/
theorem continueRun_filled {bound slot : Nat} {slots₀ : Run.Slots α} {rest : List Instruction}
    {k : Value α → Progress → m (Except (Failure ε) (Value α))} (hbound : bound ≤ slot)
    (hkeeps : Keeps bound slots₀ slots)
    (hk : ∀ v progress slots', Keeps bound slots₀ slots' →
      Run.operand? inputs slots' (.slot (slot + 1)) = some v →
      continueRun x inputs result progress slots' rest = k v progress) :
    (fun v progress => continueRun x inputs result progress ((slot + 1, v) :: slots) rest) = k := by
  funext v progress
  exact hk v progress _ (hkeeps.trans hbound (.cons (Nat.lt_succ_self _) v slots))
    (operand?_slot ..)

theorem getElem?_of_drop {as bs : List β} {a : β} {n : Nat} (h : as.drop n = a :: bs) :
    as[n]? = some a := by
  rw [← List.head?_drop, h]
  rfl

theorem continueRun_leaf {l : Label} {atom : Atom} {context : Context} {c : Generate.Counters}
    {p : Generate.Piece} {post : List (String × Atom)} {rest : List Instruction}
    {k : Value α → Progress → m (Except (Failure ε) (Value α))}
    (h : Generate.leaf l atom context c = .ok p)
    (hserves : c.Serves inputs ((Expr.leaf l atom).contents ++ post))
    (hk : ∀ v progress slots', Keeps c.slots slots slots' →
      Run.operand? inputs slots' p.result = some v →
      continueRun x inputs result progress slots' rest = k v progress) :
    continueRun x inputs result progress slots (p.code ++ rest) =
      resume (leaf x context l atom) progress k := by
  cases atom with
  | number value =>
    cases h
    rw [leaf, resume_pure]
    refine hk _ _ _ (.refl _ _) ?_
    rw [Run.operand?, getElem?_of_drop hserves.numbers]
    rfl
  | string =>
    cases h
    rw [leaf, resume_pure]
    refine hk _ _ _ (.refl _ _) ?_
    rw [Run.operand?, getElem?_of_drop hserves.strings]
    rfl
  | boolean value =>
    cases h
    rw [leaf, resume_pure]
    exact hk _ _ _ (.refl _ _) rfl
  | reference =>
    have htext := getElem?_of_drop hserves.dependencies
    simp only [Generate.leaf] at h
    simp only [leaf]
    split at h
    · rename_i hrange
      cases h
      rw [if_pos hrange, ← continueRun_filled (Nat.le_refl _) (.refl _ _) hk]
      refine continueRun_ask rest ?_
      rw [Run.value, htext,
        request_eq_reply _ x.surroundings.range fun f debugging s => f debugging s context.bare]
    · rename_i hrange
      cases h
      rw [if_neg hrange, ← continueRun_filled (Nat.le_refl _) (.refl _ _) hk]
      refine continueRun_ask rest ?_
      rw [Run.value, htext,
        request_eq_reply _ x.surroundings.cell fun f debugging s => f debugging s context.bare]
  | symbol =>
    cases h
    rw [leaf, ← continueRun_filled (Nat.le_refl _) (.refl _ _) hk]
    refine continueRun_ask rest ?_
    rw [Run.value, getElem?_of_drop hserves.symbols,
      request_eq_reply _ x.surroundings.symbol fun f debugging s => f debugging s]
  | empty =>
    cases h
    rw [leaf, resume_pure]
    exact hk _ _ _ (.refl _ _) rfl
  | other kind => cases h

/-- Every tree without gaps in its arrays is simulated by its code. -/
theorem simulates {e : Expr} (h : e.WellFormed .callable) : Simulates x inputs result e := by
  induction e with
  | leaf l atom =>
    intro context c p post progress slots rest k hp hserves hk
    obtain ⟨q, hq, rfl⟩ := Generate.expr_leaf_eq_ok hp
    rw [Generate.result_announce] at hk
    rw [continueRun_announce, expr, resume_bind]
    congr 1
    funext _ progress
    exact continueRun_leaf hq hserves hk
  | unary l suffix e ih =>
    intro context c p post progress slots rest k hp hserves hk
    obtain ⟨-, he⟩ := (Expr.wellFormed_unary ..).mp h
    obtain ⟨q, hq, rfl⟩ := Generate.expr_unary_eq_ok hp
    rw [Generate.result_announce] at hk
    rw [Expr.contents_unary] at hserves
    rw [continueRun_announce, expr, resume_bind]
    congr 1
    funext _ progress
    rw [resume_bind, Generate.emit, List.append_assoc]
    refine ih he _ _ _ _ _ _ _ _ hq hserves fun v progress slots' hkeeps hv => ?_
    have hslots := (Generate.advances_of_expr hq).1
    rw [List.singleton_append, continueRun_call rest (operands?_cons hv rfl),
      continueRun_filled hslots hkeeps hk]
  | binary l a b iha ihb =>
    intro context c p post progress slots rest k hp hserves hk
    obtain ⟨-, ha, hb⟩ := (Expr.wellFormed_binary ..).mp h
    obtain ⟨name, q, r, hname, hq, hr, rfl⟩ := Generate.expr_binary_eq_ok hp
    rw [Generate.result_announce] at hk
    rw [Expr.contents_binary, List.append_assoc] at hserves
    obtain ⟨hslots, hadvance⟩ := Generate.advances_of_expr hq
    rw [continueRun_announce, expr, resume_bind]
    congr 1
    funext _ progress
    rw [resume_bind, Generate.emit, List.append_assoc, List.append_assoc]
    refine iha ha _ _ _ _ _ _ _ _ hq hserves fun v progress slots' hkeeps hv => ?_
    rw [resume_bind]
    refine ihb hb _ _ _ _ _ _ _ _ hr (hadvance _ _ hserves)
      fun w progress slots'' hkeeps' hw => ?_
    have hv' : Run.operand? inputs slots'' q.result = some v := by
      rw [hkeeps'.operand? (Generate.isFilled_of_expr hq), hv]
    rw [List.singleton_append, continueRun_call rest (operands?_cons hv' (operands?_cons hw rfl)),
      continueRun_filled (Nat.le_trans hslots (Generate.advances_of_expr hr).1)
        (hkeeps.trans hslots hkeeps') hk, hname]
    rfl
  | call l as ih =>
    intro context c p post progress slots rest k hp hserves hk
    obtain ⟨-, has⟩ := (Expr.wellFormed_call ..).mp h
    obtain ⟨qs, hqs, rfl⟩ := Generate.expr_call_eq_ok hp
    rw [Generate.result_announce] at hk
    rw [Expr.contents_call] at hserves
    have hslots := (hqs.advances fun a _ _ _ _ ha => Generate.advances_of_expr ha).1
    rw [continueRun_announce, expr, resume_bind]
    congr 1
    funext _ progress
    rw [resume_bind, Generate.emit, List.append_assoc]
    refine continueRun_sequence hqs (fun a ha => ih a ha (has a ha)) hserves
      fun values progress slots' hkeeps hvalues => ?_
    rw [List.singleton_append, continueRun_call rest hvalues, continueRun_filled hslots hkeeps hk]
  | array l rs ih =>
    intro context c p post progress slots rest k hp hserves hk
    obtain ⟨hsound, hrs⟩ := (Expr.wellFormed_array ..).mp h
    obtain ⟨qs, hqs, hlength, rfl⟩ := Generate.expr_array_eq_ok hp
    rw [Generate.result_announce] at hk
    rw [Expr.contents_array] at hserves
    have hslots := (hqs.advances fun a _ _ _ _ ha => Generate.advances_of_expr ha).1
    have hpos : 0 < (rs.headD []).length := by
      cases rs with
      | nil => exact absurd rfl hsound.2.1
      | cons r rs => exact List.length_pos_iff.mpr (hsound.2.2 r List.mem_cons_self).1
    rw [continueRun_announce, expr, resume_bind]
    congr 1
    funext _ progress
    rw [resume_bind, resume_rows hpos hlength, Generate.emit, List.append_assoc]
    refine continueRun_sequence hqs (fun e he => ?_) hserves
      fun values progress slots' hkeeps hvalues => ?_
    · obtain ⟨r, hr, he⟩ := List.mem_flatten.mp he
      exact ih r hr e he (hrs r hr e he)
    · rw [List.singleton_append, continueRun_array rest hvalues, resume_bind]
      congr 1
      funext _ progress
      rw [resume_pure, ← continueRun_filled hslots hkeeps hk]

end Evaluation

/-- The value of a tree, or why there is none; `debugging` tells whether a mark has been passed before. -/
def Setting.evaluate {m : Type → Type} [Monad m] {ε α : Type} (x : Setting m ε α)
    (debugging : Bool) (root : Expr) : m (Except (Refusal ε) (Value α)) :=
  ((Evaluation.expr x {} root).run' { debugging }).run

variable {registry : Registry} {targeting : Targeting} {formula text : String} {root : Expr}
  {routine : Routine} {c : Compiler}

/-- Running the routine of a tree on the contents of the tree is evaluating the tree. -/
theorem Routine.run_eq_evaluate {m : Type → Type} [Monad m] [LawfulMonad m] {ε α : Type}
    (h : Routine.ofExpr registry targeting text root = .ok routine)
    (hformed : root.WellFormed .callable) (env : Surroundings m ε α) (normalForm : String)
    (debugging : Bool) (onMark : Nat → m Unit) :
    routine.run env (.ofContents root.contents) normalForm debugging onMark =
      Except.mapError Refusal.toFailure <$>
        Setting.evaluate ⟨registry, targeting, env, normalForm, onMark⟩ debugging root := by
  obtain ⟨p, hp, h⟩ := Generate.eq_ok_of_bind h
  cases h
  have hserves : Generate.Counters.Serves {} (.ofContents root.contents) (root.contents ++ []) := by
    rw [List.append_nil]
    exact ⟨rfl, rfl, rfl, rfl⟩
  have hsimulates := Evaluation.simulates (x := ⟨registry, targeting, env, normalForm, onMark⟩)
    hformed {} {} p [] { debugging } [] [] (fun v _ => pure (.ok v)) hp hserves
    fun v progress slots' _ hv => by rw [Evaluation.continueRun, Run.code, hv]
  rw [List.append_nil] at hsimulates
  exact hsimulates.trans (Evaluation.resume_end ..)

theorem Routine.key_of_ofExpr (h : Routine.ofExpr registry targeting text root = .ok routine) :
    routine.key = text := by
  obtain ⟨p, -, h⟩ := Generate.eq_ok_of_bind h
  cases h
  rfl

/-- The literals of a formula are the contents of the tree that is read from it. -/
theorem Literals.inputs_of_parse (h : Expr.parse {} formula = .ok root) :
    (Literals.ofTokens .canonical (Token.rangeTokenize .canonical formula)).inputs =
      .ofContents root.contents :=
  inputs_of_ofTokens h fun _ ht hkind => Token.text_of_invalidReference ht hkind

namespace Compiler

/-- What a formula that is accepted is read as and compiled to. -/
theorem root_of_fresh (hc : c.locale = .canonical) (h : c.fresh formula = .ok routine) :
    ∃ root, Expr.parse {} formula = .ok root ∧
      Routine.ofExpr c.registry c.targeting (c.key formula) root = .ok routine := by
  rw [fresh_of_readable (readable_of_fresh h), build_eq_bind] at h
  obtain ⟨root, hroot, hroutine⟩ := Generate.eq_ok_of_bind h
  rw [hc] at hroot
  exact ⟨root, hroot, hroutine⟩

/-- Whatever is at hand, a formula that has got the routine of its own tree is run by evaluating that
tree. -/
theorem run_of_fresh (hc : c.locale = .canonical) {s : Store} {built : Built}
    (hfresh : c.fresh formula = .ok built.routine) {f : Compiled}
    (hf : f = (c.compile s formula).1) (houtcome : f.outcome = .ok built) :
    ∃ root, Expr.parse {} formula = .ok root ∧
      ∀ {m : Type → Type} [Monad m] [LawfulMonad m] {ε α : Type} (env : Surroundings m ε α)
        (debugging : Bool) (note : Trace → m Unit),
        f.run env debugging note =
          Except.mapError Refusal.toFailure <$>
            Setting.evaluate
              ⟨c.registry, c.targeting, env, f.normalForm, fun i => note (.marker f.normalForm i)⟩
              debugging root := by
  obtain ⟨root, hparse, hroutine⟩ := root_of_fresh hc hfresh
  refine ⟨root, hparse, fun env debugging note => ?_⟩
  have hliterals : f.literals = c.literals formula := by
    rw [hf]
    exact literals_compile
  have hinputs : f.inputs = .ofContents root.contents := by
    rw [← Literals.inputs_of_parse hparse, ← hc]
    exact congrArg Literals.inputs hliterals
  have hkey : built.routine.key = f.normalForm := by
    rw [Routine.key_of_ofExpr hroutine, Compiled.normalForm, houtcome, hliterals]
    rfl
  rw [Compiled.run, houtcome, hinputs]
  simp only [hkey]
  exact Routine.run_eq_evaluate hroutine (Expr.wellFormed_of_ofTokens hparse) ..

/-- Running a formula that a compiler with nothing at hand has accepted is evaluating the tree that is
read from it: the same requests in the same order, and the same value or refusal in the end, whether a
mark for the debugger has been passed before or not. -/
theorem run_compile_eq_evaluate (c : Compiler) (hc : c.locale = .canonical) (capacity : Int)
    (formula : String) (f : Compiled) (hf : f = (c.compile (.ofCapacity capacity) formula).1)
    (hgood : f.isBad = false) :
    ∃ root, Expr.parse {} formula = .ok root ∧
      ∀ {m : Type → Type} [Monad m] [LawfulMonad m] {ε α : Type} (env : Surroundings m ε α)
        (debugging : Bool) (note : Trace → m Unit),
        f.run env debugging note =
          Except.mapError Refusal.toFailure <$>
            Setting.evaluate
              ⟨c.registry, c.targeting, env, f.normalForm, fun i => note (.marker f.normalForm i)⟩
              debugging root := by
  rw [hf] at hgood
  obtain ⟨routine, hfresh⟩ := fresh_of_not_isBad hgood
  have houtcome : f.outcome = .ok ⟨0, routine⟩ := by
    rw [hf, outcome_ofCapacity, hfresh]
    rfl
  exact run_of_fresh hc hfresh hf houtcome

/-- Of a formula with a range, an omitted argument, a mark for the debugger and an array. -/
theorem run_marked_sum_eq_evaluate :
    let f := (Compiler.compile {} (.ofCapacity 2) "=SUM(A1:B2,,?x)*\x7b1,-2;\"s\",3%\x7d").1
    f.isBad = false ∧ ∃ root,
      Expr.parse {} "=SUM(A1:B2,,?x)*\x7b1,-2;\"s\",3%\x7d" = .ok root ∧
      ∀ {m : Type → Type} [Monad m] [LawfulMonad m] {ε α : Type} (env : Surroundings m ε α)
        (debugging : Bool) (note : Trace → m Unit),
        f.run env debugging note =
          Except.mapError Refusal.toFailure <$>
            Setting.evaluate
              ⟨.standard, .standard, env, f.normalForm, fun i => note (.marker f.normalForm i)⟩
              debugging root :=
  have hgood : (Compiler.compile {} (.ofCapacity 2)
      "=SUM(A1:B2,,?x)*\x7b1,-2;\"s\",3%\x7d").1.isBad = false := by decide +kernel
  ⟨hgood, run_compile_eq_evaluate {} rfl 2 _ _ rfl hgood⟩

end Compiler

end SheetFormula
