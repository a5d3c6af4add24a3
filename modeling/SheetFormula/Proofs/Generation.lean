import SheetFormula.Routine.Generate
import SheetFormula.Proofs.Tree

/-!
What generation can do. Code for a tree is code for its parts and one instruction more, and the cells of
an array are generated like the arguments of a call without declarations. Counters only grow, and they
grow by the contents of the tree: the literals from the counters on begin with those of the tree.
-/

set_option autoImplicit false

namespace SheetFormula

/-- The operand is a literal or one of the first slots. -/
def Operand.IsFilled (slots : Nat) : Operand → Prop
  | .slot index => index ≤ slots
  | _ => True

namespace Generate

/-- The declaration that an argument of a call is held against. -/
def declaration? (registry : Registry) (targeting : Targeting) (name : String)
    (count position : Nat) : Option Argument := do
  let s ← registry.get? name
  let target ← (targeting s count).toOption
  let t ← (target position).toOption
  if t.known ∧ 0 ≤ t.index then s.arguments[t.index.toNat]? else none

/-- What a declaration asks of a reference. -/
def Context.ofDeclaration : Option Argument → Context
  | some a => ⟨a.isReference, a.acceptsRange⟩
  | none => {}

/-- What the declarations ask of the arguments of a call. -/
def declaredContexts (registry : Registry) (targeting : Targeting) (name : String)
    (count position : Nat) : Context :=
  .ofDeclaration (declaration? registry targeting name count position)

variable {registry : Registry} {targeting : Targeting} {context : Context} {c : Counters}
  {p : Piece} {l : Label}

theorem eq_ok_of_bind {ε α β : Type} {x : Except ε α} {f : α → Except ε β} {b : β}
    (h : x >>= f = .ok b) : ∃ a, x = .ok a ∧ f a = .ok b := by
  cases x with
  | ok a => exact ⟨a, rfl, h⟩
  | error e => cases h

/-- The code of several values, each generated in the context for its position. -/
inductive Sequence (registry : Registry) (targeting : Targeting) (contexts : Nat → Context) :
    Nat → Counters → List Expr → Pieces → Prop
  | nil (position : Nat) (c : Counters) :
    Sequence registry targeting contexts position c [] ⟨[], [], c⟩
  | cons {position : Nat} {c : Counters} {e : Expr} {es : List Expr} {p : Piece} {ps : Pieces}
    (head : expr registry targeting (contexts position) c e = .ok p)
    (tail : Sequence registry targeting contexts (position + 1) p.counters es ps) :
    Sequence registry targeting contexts position c (e :: es)
      ⟨p.code ++ ps.code, p.result :: ps.results, ps.counters⟩

theorem context_of_contextFor {s : Signature} {target : Nat → Except String Target} {name : String}
    {count position : Nat} {e : Expr} (hs : registry.get? name = some s)
    (htarget : targeting s count = .ok target)
    (h : contextFor name s target position e = .ok context) :
    context = declaredContexts registry targeting name count position := by
  unfold contextFor at h
  have hdeclaration : declaration? registry targeting name count position =
      (target position).toOption.bind fun t =>
        if t.known ∧ 0 ≤ t.index then s.arguments[t.index.toNat]? else none := by
    simp [declaration?, hs, htarget, Except.toOption]
  rw [declaredContexts, hdeclaration]
  split at h
  · cases h
  · rename_i t ht
    simp only [ht, Except.toOption, Option.bind_some]
    split at h
    · rename_i hknown
      split at h
      · rename_i a hindex hsign
        obtain ⟨-, -, h⟩ := eq_ok_of_bind h
        cases h
        rw [if_pos ⟨hknown.1, of_decide_eq_true hsign⟩, hindex]
        rfl
      · cases h
    · rename_i hknown
      cases h
      split
      · rename_i hpos
        have hlength : s.arguments.length ≤ t.index.toNat := by
          have hle : ¬ t.index < s.arguments.length := fun hlt => hknown ⟨hpos.1, hlt⟩
          omega
        rw [List.getElem?_eq_none hlength]
        rfl
      · rfl

theorem sequence_of_arguments {s : Signature} {target : Nat → Except String Target} {name : String}
    {count position : Nat} {es : List Expr} {ps : Pieces} (hs : registry.get? name = some s)
    (htarget : targeting s count = .ok target)
    (h : arguments registry targeting name s target position c es = .ok ps) :
    Sequence registry targeting (declaredContexts registry targeting name count) position c es
      ps := by
  induction es generalizing position c ps with
  | nil =>
    cases h
    exact .nil position c
  | cons e es ih =>
    obtain ⟨context, hcontext, h⟩ := eq_ok_of_bind h
    obtain ⟨p, hp, h⟩ := eq_ok_of_bind h
    obtain ⟨qs, hqs, h⟩ := eq_ok_of_bind h
    cases h
    rw [context_of_contextFor hs htarget hcontext] at hp
    exact .cons hp (ih hqs)

/-- A row and what follows it. -/
theorem sequence_of_cells {es fs : List Expr} {ps qs : Pieces} {position : Nat}
    (h : cells registry targeting c es = .ok ps)
    (hrest : ∀ position, Sequence registry targeting (fun _ => {}) position ps.counters fs qs) :
    Sequence registry targeting (fun _ => {}) position c (es ++ fs)
      ⟨ps.code ++ qs.code, ps.results ++ qs.results, qs.counters⟩ := by
  induction es generalizing position c ps with
  | nil =>
    cases h
    exact hrest position
  | cons e es ih =>
    obtain ⟨p, hp, h⟩ := eq_ok_of_bind h
    obtain ⟨ps, hps, h⟩ := eq_ok_of_bind h
    cases h
    have hcons : Sequence registry targeting (fun _ => {}) position c (e :: (es ++ fs)) _ :=
      .cons hp (ih hps hrest)
    simpa using hcons

theorem length_of_rows {columns : Nat} {rs : List (List Expr)} {ps : Pieces}
    (h : rows registry targeting l columns c rs = .ok ps) : ∀ r ∈ rs, r.length = columns := by
  induction rs generalizing c ps with
  | nil => exact List.forall_mem_nil _
  | cons r rs ih =>
    unfold rows at h
    split at h
    · cases h
    · rename_i hlength
      obtain ⟨ps, -, h⟩ := eq_ok_of_bind h
      obtain ⟨qs, hqs, -⟩ := eq_ok_of_bind h
      exact List.forall_mem_cons.mpr ⟨Decidable.not_not.mp hlength, ih hqs⟩

theorem sequence_of_rows {columns : Nat} {rs : List (List Expr)} {ps : Pieces}
    (h : rows registry targeting l columns c rs = .ok ps) (position : Nat) :
    Sequence registry targeting (fun _ => {}) position c rs.flatten ps := by
  induction rs generalizing position c ps with
  | nil =>
    cases h
    exact .nil position c
  | cons r rs ih =>
    unfold rows at h
    split at h
    · cases h
    · obtain ⟨ps, hps, h⟩ := eq_ok_of_bind h
      obtain ⟨qs, hqs, h⟩ := eq_ok_of_bind h
      cases h
      exact sequence_of_cells hps (ih hqs)

/-! ### Inversion, one lemma for each kind of node -/

theorem expr_leaf_eq_ok {atom : Atom}
    (h : expr registry targeting context c (.leaf l atom) = .ok p) :
    ∃ q, leaf l atom context c = .ok q ∧ p = announce l q := by
  obtain ⟨q, hq, h⟩ := eq_ok_of_bind h
  cases h
  exact ⟨q, hq, rfl⟩

theorem expr_unary_eq_ok {suffix : Bool} {e : Expr}
    (h : expr registry targeting context c (.unary l suffix e) = .ok p) :
    ∃ q, expr registry targeting {} c e = .ok q ∧
      p = announce l (emit q.code q.counters (.call · (unaryName l.text) [q.result])) := by
  obtain ⟨q, hq, h⟩ := eq_ok_of_bind h
  cases h
  exact ⟨q, hq, rfl⟩

theorem expr_binary_eq_ok {a b : Expr}
    (h : expr registry targeting context c (.binary l a b) = .ok p) :
    ∃ name q r, binaryName? l.text = some name ∧ expr registry targeting {} c a = .ok q ∧
      expr registry targeting {} q.counters b = .ok r ∧
      p = announce l
        (emit (q.code ++ r.code) r.counters (.call · name [q.result, r.result])) := by
  unfold expr at h
  split at h
  · cases h
  · rename_i name hname
    obtain ⟨q, hq, h⟩ := eq_ok_of_bind h
    obtain ⟨r, hr, h⟩ := eq_ok_of_bind h
    cases h
    exact ⟨name, q, r, hname, hq, hr, rfl⟩

theorem resolve_eq_ok {count : Nat} {s : Signature} {target : Nat → Except String Target}
    (h : resolve registry targeting l count = .ok (s, target)) :
    registry.get? (Text.upper l.text) = some s ∧ targeting s count = .ok target := by
  simp only [resolve] at h
  split at h
  · cases h
  · rename_i hs
    split at h
    · cases h
    · split at h
      · cases h
      · rename_i htarget
        cases h
        exact ⟨hs, htarget⟩

theorem expr_call_eq_ok {as : List Expr}
    (h : expr registry targeting context c (.call l as) = .ok p) :
    ∃ qs, Sequence registry targeting
        (declaredContexts registry targeting (Text.upper l.text) as.length) 0 c as qs ∧
      p = announce l (emit qs.code qs.counters (.call · (Text.upper l.text) qs.results)) := by
  obtain ⟨⟨s, target⟩, hresolve, h⟩ := eq_ok_of_bind h
  obtain ⟨qs, hqs, h⟩ := eq_ok_of_bind h
  cases h
  obtain ⟨hs, htarget⟩ := resolve_eq_ok hresolve
  exact ⟨qs, sequence_of_arguments hs htarget hqs, rfl⟩

theorem expr_array_eq_ok {rs : List (List Expr)}
    (h : expr registry targeting context c (.array l rs) = .ok p) :
    ∃ qs, Sequence registry targeting (fun _ => {}) 0 c rs.flatten qs ∧
      (∀ r ∈ rs, r.length = (rs.headD []).length) ∧
      p = announce l (emit qs.code qs.counters (.array · (rs.headD []).length qs.results)) := by
  obtain ⟨qs, hqs, h⟩ := eq_ok_of_bind h
  cases h
  exact ⟨qs, sequence_of_rows hqs 0, length_of_rows hqs, rfl⟩

/-! ### Counters -/

@[simp] theorem counters_announce (l : Label) (p : Piece) :
    (announce l p).counters = p.counters := by
  unfold announce
  split <;> rfl

@[simp] theorem result_announce (l : Label) (p : Piece) : (announce l p).result = p.result := by
  unfold announce
  split <;> rfl

/-- From the counters on, the literals at hand are those of the contents. -/
structure Counters.Serves (c : Counters) (inputs : Inputs) (cs : List (String × Atom)) : Prop where
  dependencies : inputs.dependencies.drop c.dependencies = (Inputs.ofContents cs).dependencies
  numbers : inputs.numbers.drop c.numbers = (Inputs.ofContents cs).numbers
  strings : inputs.strings.drop c.strings = (Inputs.ofContents cs).strings
  symbols : inputs.symbols.drop c.symbols = (Inputs.ofContents cs).symbols

/-- Counters move on by some contents. -/
def Counters.Advances (c : Counters) (cs : List (String × Atom)) (d : Counters) : Prop :=
  c.slots ≤ d.slots ∧ ∀ inputs post, c.Serves inputs (cs ++ post) → d.Serves inputs post

theorem Counters.Advances.refl (c : Counters) : c.Advances [] c :=
  ⟨Nat.le_refl _, fun _ _ h => h⟩

theorem Counters.Advances.trans {d e : Counters} {cs ds : List (String × Atom)}
    (hc : c.Advances cs d) (hd : d.Advances ds e) : c.Advances (cs ++ ds) e :=
  ⟨Nat.le_trans hc.1 hd.1, fun inputs post h =>
    hd.2 inputs post (hc.2 inputs (ds ++ post) (by rw [← List.append_assoc]; exact h))⟩

theorem Counters.Advances.emit {cs : List (String × Atom)} {d : Counters} (h : c.Advances cs d)
    (code : List Instruction) (instruction : Nat → Instruction) :
    c.Advances cs (emit code d instruction).counters :=
  ⟨Nat.le_succ_of_le h.1, fun inputs post hserves =>
    have hd := h.2 inputs post hserves
    ⟨hd.dependencies, hd.numbers, hd.strings, hd.symbols⟩⟩

theorem drop_succ_of_drop {α : Type} {as bs : List α} {a : α} {n : Nat}
    (h : as.drop n = a :: bs) : as.drop (n + 1) = bs := by
  rw [← List.drop_drop, h]
  rfl

theorem advances_of_leaf {atom : Atom} (h : leaf l atom context c = .ok p) :
    c.Advances (Expr.leaf l atom).contents p.counters := by
  cases atom with
  | number value =>
    cases h
    exact ⟨Nat.le_refl _, fun _ _ hc =>
      ⟨hc.dependencies, drop_succ_of_drop hc.numbers, hc.strings, hc.symbols⟩⟩
  | string =>
    cases h
    exact ⟨Nat.le_refl _, fun _ _ hc =>
      ⟨hc.dependencies, hc.numbers, drop_succ_of_drop hc.strings, hc.symbols⟩⟩
  | boolean value =>
    cases h
    exact ⟨Nat.le_refl _, fun _ _ hc => ⟨hc.dependencies, hc.numbers, hc.strings, hc.symbols⟩⟩
  | reference =>
    have hcounters : p.counters =
        { c with slots := c.slots + 1, dependencies := c.dependencies + 1 } := by
      simp only [leaf] at h
      split at h <;> (cases h; rfl)
    rw [hcounters]
    exact ⟨Nat.le_succ _, fun _ _ hc =>
      ⟨drop_succ_of_drop hc.dependencies, hc.numbers, hc.strings, hc.symbols⟩⟩
  | symbol =>
    cases h
    exact ⟨Nat.le_succ _, fun _ _ hc =>
      ⟨hc.dependencies, hc.numbers, hc.strings, drop_succ_of_drop hc.symbols⟩⟩
  | empty =>
    cases h
    exact .refl c
  | other kind => cases h

theorem Sequence.advances {contexts : Nat → Context} {position : Nat} {es : List Expr}
    {ps : Pieces} (h : Sequence registry targeting contexts position c es ps)
    (hes : ∀ e ∈ es, ∀ context c p, expr registry targeting context c e = .ok p →
      c.Advances e.contents p.counters) :
    c.Advances (Expr.contentsOf es) ps.counters := by
  induction h with
  | nil position c => exact .refl c
  | cons head tail ih =>
    obtain ⟨he, hes⟩ := List.forall_mem_cons.mp hes
    rw [Expr.contentsOf_cons]
    exact (he _ _ _ head).trans (ih hes)

/-- The code of a tree uses up the contents of the tree. -/
theorem advances_of_expr {e : Expr} (h : expr registry targeting context c e = .ok p) :
    c.Advances e.contents p.counters := by
  induction e generalizing context c p with
  | leaf l atom =>
    obtain ⟨q, hq, rfl⟩ := expr_leaf_eq_ok h
    rw [counters_announce]
    exact advances_of_leaf hq
  | unary l suffix e ih =>
    obtain ⟨q, hq, rfl⟩ := expr_unary_eq_ok h
    rw [counters_announce, Expr.contents_unary]
    exact (ih hq).emit ..
  | binary l a b iha ihb =>
    obtain ⟨name, q, r, -, hq, hr, rfl⟩ := expr_binary_eq_ok h
    rw [counters_announce, Expr.contents_binary]
    exact ((iha hq).trans (ihb hr)).emit ..
  | call l as ih =>
    obtain ⟨qs, hqs, rfl⟩ := expr_call_eq_ok h
    rw [counters_announce, Expr.contents_call]
    exact (hqs.advances fun a ha _ _ _ => ih a ha).emit ..
  | array l rs ih =>
    obtain ⟨qs, hqs, -, rfl⟩ := expr_array_eq_ok h
    rw [counters_announce, Expr.contents_array]
    refine (hqs.advances fun e he _ _ _ => ?_).emit ..
    obtain ⟨r, hr, he⟩ := List.mem_flatten.mp he
    exact ih r hr e he

/-- The value of a tree is in a slot that its code has filled, or needs none. -/
theorem isFilled_of_expr {e : Expr} (h : expr registry targeting context c e = .ok p) :
    p.result.IsFilled p.counters.slots := by
  cases e with
  | leaf l atom =>
    obtain ⟨q, hq, rfl⟩ := expr_leaf_eq_ok h
    rw [counters_announce, result_announce]
    cases atom with
    | reference =>
      simp only [leaf] at hq
      split at hq <;> (cases hq; exact Nat.le_refl _)
    | symbol => cases hq; exact Nat.le_refl _
    | other kind => cases hq
    | _ => cases hq; trivial
  | unary l suffix e =>
    obtain ⟨q, hq, rfl⟩ := expr_unary_eq_ok h
    rw [counters_announce, result_announce]
    exact Nat.le_refl _
  | binary l a b =>
    obtain ⟨name, q, r, -, hq, hr, rfl⟩ := expr_binary_eq_ok h
    rw [counters_announce, result_announce]
    exact Nat.le_refl _
  | call l as =>
    obtain ⟨qs, hqs, rfl⟩ := expr_call_eq_ok h
    rw [counters_announce, result_announce]
    exact Nat.le_refl _
  | array l rs =>
    obtain ⟨qs, hqs, -, rfl⟩ := expr_array_eq_ok h
    rw [counters_announce, result_announce]
    exact Nat.le_refl _

end Generate

end SheetFormula
