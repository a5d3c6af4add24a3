import Mathlib.Data.List.Chain
import SheetFormula.Expr.Parser
import SheetFormula.Proofs.Tree

/-!
What the parser does with one terminal, said once as a relation between stages (`Parser.Moves`), and
what follows for a whole formula. The contents of the tree are those of the terminals, in order, and
every node of it is well formed.
-/

set_option autoImplicit false

namespace SheetFormula

/-- The contents of a terminal: those of its leaf, if it is one. -/
def Terminal.contents (t : Terminal) : List (String × Atom) :=
  match t.role with
  | .operand leaf => leaf.contents
  | _ => []

/-- The terminal's leaf, or the name of its call, is in the vocabulary. -/
def Terminal.Sound (V : Vocabulary) (t : Terminal) : Prop :=
  match t.role with
  | .operand leaf => leaf.IsOperand V
  | .callStart => V.function t.text
  | _ => True

/-- An operand ends with this terminal. -/
def Terminal.Ends (t : Terminal) : Prop :=
  match t.role with
  | .operand _ | .rightParen | .rightBrace => True
  | .operator => Operator.isSuffix t.text = true
  | _ => False

/-- The terminal stands where an operand is awaited. -/
def Terminal.Begins (t : Terminal) : Prop :=
  match t.role with
  | .operand _ | .callStart | .marker | .leftParen | .leftBrace | .argSeparator | .rightParen => True
  | .operator => Operator.isSign t.text = true
  | _ => False

/-- The terminal stands after an operand. -/
def Terminal.Continues (t : Terminal) : Prop :=
  match t.role with
  | .operator | .rightParen | .rightBrace | .argSeparator | .rowSeparator => True
  | _ => False

/-- The second terminal can follow the first. -/
def Terminal.Adjacent (t u : Terminal) : Prop :=
  (t.Ends → u.Continues) ∧ (¬ t.Ends → u.Begins)

/-! ### Outcomes that were checked -/

section Outcome

variable {ε α β : Type} {x : Except ε α}

theorem exists_ok_of_isOk (h : x.isOk = true) : ∃ a, x = .ok a := by
  cases x with
  | error e => cases h
  | ok a => exact ⟨a, rfl⟩

theorem exists_ok_of_any {p : α → Bool} (h : x.toOption.any p = true) :
    ∃ a, x = .ok a ∧ p a = true := by
  cases x with
  | error e => cases h
  | ok a => exact ⟨a, rfl, h⟩

theorem exists_ok_of_map {f : α → β} {b : β} (h : x.toOption.map f = some b) :
    ∃ a, x = .ok a ∧ f a = b := by
  cases x with
  | error e => cases h
  | ok a => exact ⟨a, rfl, Option.some.inj h⟩

end Outcome

namespace Parser

variable {limit : Option Nat} {stop : Nat} {t : Terminal} {stage next : Stage} {root : Expr}

/-! ### Moves -/

/-- What a terminal can begin where an operand is awaited. -/
inductive Opens (t : Terminal) (frames : List Frame) : Stage → Prop
  | leaf (e : Expr) (role : t.role = .operand e) : Opens t frames (.operator e frames)
  | call (role : t.role = .callStart) : Opens t frames (.argument t.text t.index [] frames)
  | marker (role : t.role = .marker) : Opens t frames (.operand (.marker t.index :: frames))
  | group (role : t.role = .leftParen) : Opens t frames (.operand (.group :: frames))
  | array (role : t.role = .leftBrace) :
    Opens t frames (.operand (.array t.index [] [] :: frames))
  | sign (role : t.role = .operator) (sign : Operator.isSign t.text = true) :
    Opens t frames (.operand (.sign t.text t.index :: frames))

/-- What the parser can do with a terminal. -/
inductive Moves (t : Terminal) : Stage → Stage → Prop
  | operand {frames : List Frame} {next : Stage} (opens : Opens t frames next) :
    Moves t (.operand frames) next
  | argument {name : String} {index : Nat} {arguments : List Expr} {frames : List Frame}
    {next : Stage} (opens : Opens t (.call name index arguments :: frames) next) :
    Moves t (.argument name index arguments frames) next
  | omitted {name : String} {index : Nat} {arguments : List Expr} {frames : List Frame}
    (role : t.role = .argSeparator) :
    Moves t (.argument name index arguments frames)
      (.argument name index (arguments ++ [Parser.omitted t.index]) frames)
  | lastOmitted {name : String} {index : Nat} {arguments : List Expr} {frames : List Frame}
    (role : t.role = .rightParen) (some : arguments ≠ []) :
    Moves t (.argument name index arguments frames)
      (.operator (finishCall name index (arguments ++ [Parser.omitted t.index]) t.index) frames)
  | noArgument {name : String} {index : Nat} {frames : List Frame} (role : t.role = .rightParen) :
    Moves t (.argument name index [] frames) (.operator (finishCall name index [] t.index) frames)
  | suffix {left operand : Expr} {frames rest : List Frame} (role : t.role = .operator)
    (suffix : Operator.isSuffix t.text = true)
    (closed : close (Operator.priority t.text) left frames = (operand, rest)) :
    Moves t (.operator left frames)
      (.operator (.unary ⟨t.text, false, ⟨operand.span.start, t.index⟩⟩ true operand) rest)
  | operation {left operand : Expr} {frames rest : List Frame} (role : t.role = .operator)
    (binds : 0 < Operator.priority t.text) (binary : Operator.isSuffix t.text = false)
    (closed : close (Operator.priority t.text) left frames = (operand, rest)) :
    Moves t (.operator left frames) (.operand (.operation t.text operand :: rest))
  | closeGroup {left operand : Expr} {frames rest : List Frame} (role : t.role = .rightParen)
    (closed : close 0 left frames = (operand, .group :: rest)) :
    Moves t (.operator left frames) (.operator operand rest)
  | nextArgument {left operand : Expr} {frames rest : List Frame} {name : String} {index : Nat}
    {arguments : List Expr} (role : t.role = .argSeparator)
    (closed : close 0 left frames = (operand, .call name index arguments :: rest)) :
    Moves t (.operator left frames) (.argument name index (arguments ++ [operand]) rest)
  | closeCall {left operand : Expr} {frames rest : List Frame} {name : String} {index : Nat}
    {arguments : List Expr} (role : t.role = .rightParen)
    (closed : close 0 left frames = (operand, .call name index arguments :: rest)) :
    Moves t (.operator left frames)
      (.operator (finishCall name index (arguments ++ [operand]) t.index) rest)
  | nextCell {left operand : Expr} {frames rest : List Frame} {index : Nat}
    {rows : List (List Expr)} {row : List Expr} (role : t.role = .argSeparator)
    (closed : close 0 left frames = (operand, .array index rows row :: rest)) :
    Moves t (.operator left frames) (.operand (.array index rows (row ++ [operand]) :: rest))
  | nextRow {left operand : Expr} {frames rest : List Frame} {index : Nat}
    {rows : List (List Expr)} {row : List Expr} (role : t.role = .rowSeparator)
    (closed : close 0 left frames = (operand, .array index rows row :: rest)) :
    Moves t (.operator left frames)
      (.operand (.array index (rows ++ [row ++ [operand]]) [] :: rest))
  | closeArray {left operand : Expr} {frames rest : List Frame} {index : Nat}
    {rows : List (List Expr)} {row : List Expr} (role : t.role = .rightBrace)
    (closed : close 0 left frames = (operand, .array index rows row :: rest)) :
    Moves t (.operator left frames)
      (.operator (.array ⟨"", false, ⟨index, t.index⟩⟩ (rows ++ [row ++ [operand]])) rest)

theorem opens_of_startOperand {frames : List Frame}
    (h : startOperand limit frames t = .ok next) : Opens t frames next := by
  unfold startOperand at h
  split at h
  · cases h
  · split at h
    all_goals first | cases h | skip
    · exact .leaf _ ‹_›
    · exact .call ‹_›
    · exact .marker ‹_›
    · exact .group ‹_›
    · exact .array ‹_›
    · split at h
      · cases h
        exact .sign ‹_› ‹_›
      · cases h

theorem moves_of_startArgument {name : String} {index : Nat} {arguments : List Expr}
    {frames : List Frame} (h : startArgument limit name index arguments frames t = .ok next) :
    Moves t (.argument name index arguments frames) next := by
  unfold startArgument at h
  split at h
  · cases h
    exact .omitted ‹_›
  · cases h
    cases arguments with
    | nil => exact .noArgument ‹_›
    | cons a as => exact .lastOmitted ‹_› (List.cons_ne_nil a as)
  · exact .argument (opens_of_startOperand h)

theorem moves_of_continueBracket {left operand : Expr} {frames rest : List Frame}
    (closed : close 0 left frames = (operand, rest))
    (h : continueBracket operand rest t = .ok next) : Moves t (.operator left frames) next := by
  unfold continueBracket at h
  split at h
  · split at h
    · cases h
      exact .closeGroup ‹_› closed
    · cases h
  · split at h
    · cases h
      exact .nextArgument ‹_› closed
    · cases h
      exact .closeCall ‹_› closed
    · cases h
  · split at h
    · cases h
      exact .nextCell ‹_› closed
    · cases h
      exact .nextRow ‹_› closed
    · cases h
      exact .closeArray ‹_› closed
    · cases h
  · cases h

theorem role_of_bindingOf_ne_zero (h : bindingOf t ≠ 0) : t.role = .operator := by
  unfold bindingOf at h
  split at h
  · assumption
  · exact absurd rfl h

theorem bindingOf_of_operator (h : t.role = .operator) :
    bindingOf t = Operator.priority t.text := by
  simp [bindingOf, h]

theorem moves_of_step (h : step limit t stage = .ok next) : Moves t stage next := by
  cases stage with
  | operand frames => exact .operand (opens_of_startOperand h)
  | argument name index arguments frames => exact moves_of_startArgument h
  | operator left frames =>
    simp only [step, continueOperand] at h
    rcases hc : close (bindingOf t) left frames with ⟨operand, rest⟩
    rw [hc] at h
    dsimp only at h
    split at h
    · rename_i hzero
      rw [hzero] at hc
      exact moves_of_continueBracket hc h
    · rename_i hbinds
      have hrole := role_of_bindingOf_ne_zero hbinds
      rw [bindingOf_of_operator hrole] at hbinds hc
      split at h
      · cases h
        exact .suffix hrole ‹_› hc
      · rename_i hsuffix
        cases h
        exact .operation hrole (Nat.pos_of_ne_zero hbinds) (Bool.eq_false_iff.mpr hsuffix) hc

/-- The stage that the terminals lead to. -/
inductive Reaches : Stage → List Terminal → Stage → Prop
  | refl (stage : Stage) : Reaches stage [] stage
  | step {t : Terminal} {rest : List Terminal} {stage next last : Stage}
    (moves : Moves t stage next) (reaches : Reaches next rest last) :
    Reaches stage (t :: rest) last

theorem finish_eq_ok (h : finish limit stage = .ok root) :
    ∃ left frames, stage = .operator left frames ∧ close 0 left frames = (root, []) := by
  cases stage with
  | operand frames => simp [finish] at h
  | argument name index arguments frames => simp [finish] at h
  | operator left frames =>
    refine ⟨left, frames, rfl, ?_⟩
    simp only [finish] at h
    split at h
    · cases h
      assumption
    all_goals cases h

/-- A formula that is read leads to a last operand that closes all that is open. -/
theorem reaches_of_run {terminals : List Terminal}
    (h : run limit stop stage terminals = .ok root) :
    ∃ left frames, Reaches stage terminals (.operator left frames) ∧
      close 0 left frames = (root, []) := by
  induction terminals generalizing stage with
  | nil =>
    simp only [run] at h
    split at h
    · rename_i hfinish
      cases h
      obtain ⟨left, frames, rfl, hclose⟩ := finish_eq_ok hfinish
      exact ⟨left, frames, .refl _, hclose⟩
    · cases h
  | cons t rest ih =>
    simp only [run] at h
    split at h
    · rename_i next hstep
      obtain ⟨left, frames, hreaches, hclose⟩ := ih h
      exact ⟨left, frames, .step (moves_of_step hstep) hreaches, hclose⟩
    · cases h

/-! ### Neighbours -/

/-- The stage comes after an operand. -/
def Stage.IsOperator : Stage → Prop
  | .operator .. => True
  | _ => False

theorem not_isSuffix_of_isSign {op : String} (h : Operator.isSign op = true) :
    Operator.isSuffix op = false := by
  simp only [Operator.isSign, Bool.or_eq_true, beq_iff_eq] at h
  rcases h with rfl | rfl <;> rfl

theorem Opens.neighbours {frames : List Frame} (h : Opens t frames next) :
    t.Begins ∧ (t.Ends ↔ next.IsOperator) := by
  cases h with
  | sign role sign =>
    simp [Terminal.Begins, Terminal.Ends, Stage.IsOperator, role, sign, not_isSuffix_of_isSign sign]
  | _ => simp [Terminal.Begins, Terminal.Ends, Stage.IsOperator, *]

theorem Moves.neighbours (h : Moves t stage next) :
    (stage.IsOperator → t.Continues) ∧ (¬ stage.IsOperator → t.Begins) ∧
      (t.Ends ↔ next.IsOperator) := by
  cases h with
  | operand opens => exact ⟨False.elim, fun _ => opens.neighbours.1, opens.neighbours.2⟩
  | argument opens => exact ⟨False.elim, fun _ => opens.neighbours.1, opens.neighbours.2⟩
  | _ => simp [Terminal.Continues, Terminal.Begins, Terminal.Ends, Stage.IsOperator, *]

/-- Terminals that the parser takes one after the other can follow each other. -/
theorem Reaches.isChain {terminals : List Terminal} (h : Reaches stage terminals next) :
    terminals.IsChain Terminal.Adjacent ∧ (∀ t ∈ terminals.head?,
      (stage.IsOperator → t.Continues) ∧ (¬ stage.IsOperator → t.Begins)) := by
  induction h with
  | refl stage => simp
  | @step t rest stage next last moves reaches ih =>
    obtain ⟨hcontinues, hbegins, hends⟩ := moves.neighbours
    refine ⟨?_, by simpa using ⟨hcontinues, hbegins⟩⟩
    cases rest with
    | nil => exact .singleton t
    | cons u rest =>
      have hu := ih.2 u rfl
      rw [← hends] at hu
      exact .cons_cons hu ih.1

theorem Reaches.begins_or_continues {terminals : List Terminal}
    (h : Reaches stage terminals next) : ∀ t ∈ terminals, t.Begins ∨ t.Continues := by
  induction h with
  | refl stage => exact List.forall_mem_nil _
  | @step t rest stage next last moves reaches ih =>
    obtain ⟨hcontinues, hbegins, -⟩ := moves.neighbours
    refine List.forall_mem_cons.mpr ⟨?_, ih⟩
    by_cases hstage : stage.IsOperator
    · exact .inr (hcontinues hstage)
    · exact .inl (hbegins hstage)

/-! ### Contents -/

/-- The contents that an open construct has taken up. -/
@[simp] def Frame.contents : Frame → List (String × Atom)
  | .operation _ left => left.contents
  | .call _ _ arguments => Expr.contentsOf arguments
  | .array _ rows row => Expr.contentsOf (rows.flatten ++ row)
  | _ => []

/-- The contents of the open constructs, from the outermost inwards. -/
def contentsOfFrames (frames : List Frame) : List (String × Atom) :=
  frames.reverse.flatMap Frame.contents

/-- The contents that have been read at a stage. -/
@[simp] def Stage.contents : Stage → List (String × Atom)
  | .operand frames => contentsOfFrames frames
  | .argument _ _ arguments frames => contentsOfFrames frames ++ Expr.contentsOf arguments
  | .operator left frames => contentsOfFrames frames ++ left.contents

@[simp] theorem contentsOfFrames_cons (frame : Frame) (frames : List Frame) :
    contentsOfFrames (frame :: frames) = contentsOfFrames frames ++ frame.contents := by
  simp [contentsOfFrames]

/-- Closing operations moves contents from the open constructs into the operand. -/
theorem contents_close (binding : Nat) (operand : Expr) (frames : List Frame) :
    contentsOfFrames (close binding operand frames).2 ++ (close binding operand frames).1.contents =
      contentsOfFrames frames ++ operand.contents := by
  induction frames generalizing operand with
  | nil => rfl
  | cons frame frames ih =>
    unfold close
    split
    · rfl
    · cases frame with
      | marker index => simpa using ih (operand.marked index)
      | sign op index =>
        simpa using
          ih (.unary ⟨op, false, ⟨index, operand.span.stop⟩⟩ false operand)
      | operation op left =>
        simpa using
          ih (.binary ⟨op, false, ⟨left.span.start, operand.span.stop⟩⟩ left operand)
      | group => rfl
      | call name index arguments => rfl
      | array index rows row => rfl

theorem contents_of_close {binding : Nat} {left operand : Expr} {frames rest : List Frame}
    (h : close binding left frames = (operand, rest)) :
    contentsOfFrames frames ++ left.contents = contentsOfFrames rest ++ operand.contents := by
  have hclose := contents_close binding left frames
  rw [h] at hclose
  exact hclose.symm

@[simp] theorem contents_omitted (index : Nat) : (omitted index).contents = [] := rfl

theorem Opens.contents {frames : List Frame} (h : Opens t frames next) :
    next.contents = contentsOfFrames frames ++ t.contents := by
  cases h <;> simp [Terminal.contents, *]

theorem Moves.contents (h : Moves t stage next) :
    next.contents = stage.contents ++ t.contents := by
  cases h with
  | operand opens => exact opens.contents
  | argument opens => simpa using opens.contents
  | omitted role => simp [Terminal.contents, role]
  | lastOmitted role some => simp [Terminal.contents, role, finishCall]
  | noArgument role => simp [Terminal.contents, role, finishCall]
  | suffix role suffix closed => simp [Terminal.contents, role, contents_of_close closed]
  | operation role binds binary closed => simp [Terminal.contents, role, contents_of_close closed]
  | closeGroup role closed => simp [Terminal.contents, role, contents_of_close closed]
  | nextArgument role closed => simp [Terminal.contents, role, contents_of_close closed]
  | closeCall role closed => simp [Terminal.contents, role, contents_of_close closed, finishCall]
  | nextCell role closed => simp [Terminal.contents, role, contents_of_close closed]
  | nextRow role closed => simp [Terminal.contents, role, contents_of_close closed]
  | closeArray role closed => simp [Terminal.contents, role, contents_of_close closed]

theorem Reaches.contents {terminals : List Terminal} (h : Reaches stage terminals next) :
    next.contents = stage.contents ++ terminals.flatMap Terminal.contents := by
  induction h with
  | refl stage => simp
  | step moves reaches ih => rw [ih, moves.contents, List.flatMap_cons, List.append_assoc]

/-- A tree has the contents of the terminals from which it is read. -/
theorem contents_of_run {terminals : List Terminal}
    (h : run limit stop (.operand []) terminals = .ok root) :
    root.contents = terminals.flatMap Terminal.contents := by
  obtain ⟨left, frames, hreaches, hclose⟩ := reaches_of_run h
  have hcontents := hreaches.contents
  simp only [Stage.contents] at hcontents
  rw [contents_of_close hclose] at hcontents
  simpa [contentsOfFrames] using hcontents

/-! ### Well-formed trees -/

variable {V : Vocabulary}

/-- The parts of an open construct are well formed. -/
def Frame.WellFormed (V : Vocabulary) : Frame → Prop
  | .marker _ => True
  | .group => True
  | .sign op _ => Operator.isSign op = true
  | .operation op left =>
    0 < Operator.priority op ∧ Operator.isSuffix op = false ∧ left.IsOperand V
  | .call name _ arguments =>
    V.function name ∧ ∀ a ∈ arguments, a.WellFormed V
  | .array _ rows row =>
    (∀ r ∈ rows, r ≠ [] ∧ ∀ c ∈ r, c.IsOperand V) ∧ ∀ c ∈ row, c.IsOperand V

/-- All that a stage holds is well formed. -/
def Stage.WellFormed (V : Vocabulary) : Stage → Prop
  | .operand frames => ∀ f ∈ frames, f.WellFormed V
  | .argument name _ arguments frames =>
    V.function name ∧ (∀ a ∈ arguments, a.WellFormed V) ∧
      ∀ f ∈ frames, f.WellFormed V
  | .operator left frames => left.IsOperand V ∧ ∀ f ∈ frames, f.WellFormed V

theorem isOperand_close {binding : Nat} {left operand : Expr} {frames rest : List Frame}
    (h : close binding left frames = (operand, rest)) (hleft : left.IsOperand V)
    (hframes : ∀ f ∈ frames, f.WellFormed V) :
    operand.IsOperand V ∧ ∀ f ∈ rest, f.WellFormed V := by
  induction frames generalizing left with
  | nil =>
    cases h
    exact ⟨hleft, hframes⟩
  | cons frame frames ih =>
    obtain ⟨hframe, hrest⟩ := List.forall_mem_cons.mp hframes
    unfold close at h
    split at h
    · cases h
      exact ⟨hleft, hframes⟩
    · cases frame with
      | marker index => exact ih h (hleft.marked index) hrest
      | sign op index =>
        refine ih h ⟨?_, rfl⟩ hrest
        exact (Expr.wellFormed_unary _ _ _).mpr ⟨⟨hframe, hleft.2⟩, hleft.1⟩
      | operation op other =>
        obtain ⟨hbinds, hbinary, hother⟩ := hframe
        refine ih h ⟨?_, rfl⟩ hrest
        exact (Expr.wellFormed_binary _ _ _).mpr
          ⟨⟨hbinds, hbinary, hother.2, hleft.2⟩, hother.1, hleft.1⟩
      | group =>
        cases h
        exact ⟨hleft, hframes⟩
      | call name index arguments =>
        cases h
        exact ⟨hleft, hframes⟩
      | array index rows row =>
        cases h
        exact ⟨hleft, hframes⟩

theorem wellFormed_omitted (index : Nat) : (omitted index).WellFormed V :=
  (Expr.wellFormed_leaf _ _).mpr ⟨rfl, rfl⟩

theorem isOperand_finishCall {name : String} {arguments : List Expr} (index stop : Nat)
    (hname : V.function name) (harguments : ∀ a ∈ arguments, a.WellFormed V)
    (hsingle : ∀ a, arguments = [a] → a.isOmitted = false) :
    (finishCall name index arguments stop).IsOperand V :=
  ⟨(Expr.wellFormed_call _ _).mpr ⟨⟨hname, hsingle⟩, harguments⟩, rfl⟩

theorem Opens.wellFormed {frames : List Frame} (h : Opens t frames next) (ht : t.Sound V)
    (hframes : ∀ f ∈ frames, f.WellFormed V) : next.WellFormed V := by
  cases h with
  | leaf e role =>
    rw [Terminal.Sound, role] at ht
    exact ⟨ht, hframes⟩
  | call role =>
    rw [Terminal.Sound, role] at ht
    exact ⟨ht, List.forall_mem_nil _, hframes⟩
  | marker role => exact List.forall_mem_cons.mpr ⟨trivial, hframes⟩
  | group role => exact List.forall_mem_cons.mpr ⟨trivial, hframes⟩
  | array role =>
    exact List.forall_mem_cons.mpr ⟨⟨List.forall_mem_nil _, List.forall_mem_nil _⟩, hframes⟩
  | sign role sign => exact List.forall_mem_cons.mpr ⟨sign, hframes⟩

theorem forall_mem_append_singleton {α : Type} {p : α → Prop} {as : List α} {a : α}
    (has : ∀ x ∈ as, p x) (ha : p a) : ∀ x ∈ as ++ [a], p x := by
  simpa [or_imp, forall_and] using ⟨has, ha⟩

/-- One terminal keeps a stage well formed. -/
theorem Moves.wellFormed (h : Moves t stage next) (ht : t.Sound V) (hstage : stage.WellFormed V) :
    next.WellFormed V := by
  cases h with
  | operand opens => exact opens.wellFormed ht hstage
  | argument opens =>
    obtain ⟨hname, harguments, hframes⟩ := hstage
    exact opens.wellFormed ht (List.forall_mem_cons.mpr ⟨⟨hname, harguments⟩, hframes⟩)
  | omitted role =>
    obtain ⟨hname, harguments, hframes⟩ := hstage
    exact ⟨hname, forall_mem_append_singleton harguments (wellFormed_omitted _), hframes⟩
  | lastOmitted role some =>
    obtain ⟨hname, harguments, hframes⟩ := hstage
    refine ⟨isOperand_finishCall _ _ hname
      (forall_mem_append_singleton harguments (wellFormed_omitted _)) ?_, hframes⟩
    intro a ha
    have hlength := congrArg List.length ha
    rw [List.length_append, List.length_singleton, List.length_singleton] at hlength
    exact absurd (List.length_eq_zero_iff.mp (by omega)) some
  | noArgument role =>
    obtain ⟨hname, harguments, hframes⟩ := hstage
    exact ⟨isOperand_finishCall _ _ hname harguments (by simp), hframes⟩
  | suffix role suffix closed =>
    obtain ⟨hoperand, hrest⟩ := isOperand_close closed hstage.1 hstage.2
    exact ⟨⟨(Expr.wellFormed_unary _ _ _).mpr ⟨⟨suffix, hoperand.2⟩, hoperand.1⟩, rfl⟩, hrest⟩
  | operation role binds binary closed =>
    obtain ⟨hoperand, hrest⟩ := isOperand_close closed hstage.1 hstage.2
    exact List.forall_mem_cons.mpr ⟨⟨binds, binary, hoperand⟩, hrest⟩
  | closeGroup role closed =>
    obtain ⟨hoperand, hrest⟩ := isOperand_close closed hstage.1 hstage.2
    exact ⟨hoperand, (List.forall_mem_cons.mp hrest).2⟩
  | nextArgument role closed =>
    obtain ⟨hoperand, hrest⟩ := isOperand_close closed hstage.1 hstage.2
    obtain ⟨⟨hname, harguments⟩, hframes⟩ := List.forall_mem_cons.mp hrest
    exact ⟨hname, forall_mem_append_singleton harguments hoperand.1, hframes⟩
  | closeCall role closed =>
    obtain ⟨hoperand, hrest⟩ := isOperand_close closed hstage.1 hstage.2
    obtain ⟨⟨hname, harguments⟩, hframes⟩ := List.forall_mem_cons.mp hrest
    refine ⟨isOperand_finishCall _ _ hname
      (forall_mem_append_singleton harguments hoperand.1) ?_, hframes⟩
    intro a ha
    rcases List.append_eq_singleton_iff.mp ha with ⟨-, hlast⟩ | ⟨-, hlast⟩
    · cases hlast
      exact hoperand.2
    · cases hlast
  | nextCell role closed =>
    obtain ⟨hoperand, hrest⟩ := isOperand_close closed hstage.1 hstage.2
    obtain ⟨⟨hrows, hrow⟩, hframes⟩ := List.forall_mem_cons.mp hrest
    exact List.forall_mem_cons.mpr
      ⟨⟨hrows, forall_mem_append_singleton hrow hoperand⟩, hframes⟩
  | nextRow role closed =>
    obtain ⟨hoperand, hrest⟩ := isOperand_close closed hstage.1 hstage.2
    obtain ⟨⟨hrows, hrow⟩, hframes⟩ := List.forall_mem_cons.mp hrest
    have hfull := forall_mem_append_singleton hrow hoperand
    exact List.forall_mem_cons.mpr
      ⟨⟨forall_mem_append_singleton hrows ⟨by simp, hfull⟩, List.forall_mem_nil _⟩, hframes⟩
  | closeArray role closed =>
    obtain ⟨hoperand, hrest⟩ := isOperand_close closed hstage.1 hstage.2
    obtain ⟨⟨hrows, hrow⟩, hframes⟩ := List.forall_mem_cons.mp hrest
    have hfull := forall_mem_append_singleton hrow hoperand
    have hall := forall_mem_append_singleton hrows ⟨by simp, hfull⟩
    refine ⟨⟨(Expr.wellFormed_array _ _).mpr ⟨⟨rfl, by simp, ?_⟩, ?_⟩, rfl⟩, hframes⟩
    · intro r hr
      exact ⟨(hall r hr).1, fun c hc => ((hall r hr).2 c hc).2⟩
    · intro r hr c hc
      exact ((hall r hr).2 c hc).1

theorem Reaches.wellFormed {terminals : List Terminal} (h : Reaches stage terminals next)
    (hterminals : ∀ t ∈ terminals, t.Sound V) (hstage : stage.WellFormed V) :
    next.WellFormed V := by
  induction h with
  | refl stage => exact hstage
  | step moves reaches ih =>
    obtain ⟨ht, hrest⟩ := List.forall_mem_cons.mp hterminals
    exact ih hrest (moves.wellFormed ht hstage)

/-- A tree that is read from sound terminals is well formed. -/
theorem isOperand_of_run {terminals : List Terminal}
    (h : run limit stop (.operand []) terminals = .ok root)
    (hterminals : ∀ t ∈ terminals, t.Sound V) : root.IsOperand V := by
  obtain ⟨left, frames, hreaches, hclose⟩ := reaches_of_run h
  obtain ⟨hleft, hframes⟩ := hreaches.wellFormed hterminals (List.forall_mem_nil _)
  exact (isOperand_close hclose hleft hframes).1

/-! ### Formulas -/

theorem Opens.readable {frames : List Frame} (h : Opens t frames next) :
    t.role ≠ .unreadable := by
  cases h <;> simp [*]

theorem Moves.readable (h : Moves t stage next) : t.role ≠ .unreadable := by
  cases h with
  | operand opens => exact opens.readable
  | argument opens => exact opens.readable
  | _ => simp [*]

theorem Reaches.readable {terminals : List Terminal} (h : Reaches stage terminals next) :
    ∀ t ∈ terminals, t.role ≠ .unreadable := by
  induction h with
  | refl stage => exact List.forall_mem_nil _
  | step moves reaches ih => exact List.forall_mem_cons.mpr ⟨moves.readable, ih⟩

theorem dropEquals_cases (terminals : List Terminal) :
    dropEquals terminals = terminals ∨
      ∃ t, terminals = t :: dropEquals terminals ∧ t.role = .operator ∧ t.text = "=" := by
  unfold dropEquals
  split
  · split
    · split
      · exact .inr ⟨_, rfl, ‹_›, ‹_›⟩
      · exact .inl rfl
    · exact .inl rfl
  · exact .inl rfl

theorem run_of_ofTokens {reading : Reading} {tokens : List Token}
    (h : Expr.ofTokens reading tokens = .ok root) :
    run reading.limit tokens.length (.operand [])
      (dropEquals (Terminal.ofTokens reading.locale tokens)) = .ok root := by
  unfold Expr.ofTokens at h
  split at h
  · cases h
  · exact h

theorem toOption_ofTokens (reading : Reading) (tokens : List Token) :
    (Expr.ofTokens reading tokens).toOption = (run reading.limit tokens.length (.operand [])
      (dropEquals (Terminal.ofTokens reading.locale tokens))).toOption := by
  unfold Expr.ofTokens
  split
  · rename_i hnil
    rw [hnil]
    rfl
  · rfl

theorem readable_of_ofTokens {reading : Reading} {tokens : List Token}
    (h : Expr.ofTokens reading tokens = .ok root) :
    ∀ t ∈ Terminal.ofTokens reading.locale tokens, t.role ≠ .unreadable := by
  obtain ⟨left, frames, hreaches, -⟩ := reaches_of_run (run_of_ofTokens h)
  have hread := hreaches.readable
  rcases dropEquals_cases (Terminal.ofTokens reading.locale tokens) with heq | ⟨t, heq, hrole, -⟩
  · rwa [heq] at hread
  · rw [heq]
    exact List.forall_mem_cons.mpr ⟨by simp [hrole], hread⟩

/-- The terminals of a formula that is read can follow each other. -/
theorem isChain_of_ofTokens {reading : Reading} {tokens : List Token}
    (h : Expr.ofTokens reading tokens = .ok root) :
    (Terminal.ofTokens reading.locale tokens).IsChain Terminal.Adjacent ∧
      ∀ t ∈ Terminal.ofTokens reading.locale tokens, t.Begins ∨ t.Continues := by
  obtain ⟨left, frames, hreaches, -⟩ := reaches_of_run (run_of_ofTokens h)
  obtain ⟨hchain, hhead⟩ := hreaches.isChain
  have hmem := hreaches.begins_or_continues
  rcases dropEquals_cases (Terminal.ofTokens reading.locale tokens) with
    heq | ⟨t, heq, hrole, htext⟩
  · rw [heq] at hchain hmem
    exact ⟨hchain, hmem⟩
  · rw [heq]
    refine ⟨hchain.cons fun u hu => ⟨fun hends => ?_, fun _ => (hhead u hu).2 id⟩,
      List.forall_mem_cons.mpr ⟨.inr (by simp [Terminal.Continues, hrole]), hmem⟩⟩
    simp only [Terminal.Ends, hrole, htext] at hends
    cases hends

/-- A tree has the contents of its formula's terminals. -/
theorem contents_of_ofTokens {reading : Reading} {tokens : List Token}
    (h : Expr.ofTokens reading tokens = .ok root) :
    root.contents = (Terminal.ofTokens reading.locale tokens).flatMap Terminal.contents := by
  rw [contents_of_run (run_of_ofTokens h)]
  rcases dropEquals_cases (Terminal.ofTokens reading.locale tokens) with heq | ⟨t, heq, hrole, -⟩
  · rw [heq]
  · conv =>
      rhs
      rw [heq, List.flatMap_cons, Terminal.contents, hrole, List.nil_append]

/-- A tree that is read from sound terminals is well formed. -/
theorem isOperand_of_ofTokens {reading : Reading} {tokens : List Token}
    (h : Expr.ofTokens reading tokens = .ok root)
    (hterminals : ∀ t ∈ Terminal.ofTokens reading.locale tokens, t.Sound V) : root.IsOperand V := by
  refine isOperand_of_run (run_of_ofTokens h) fun t ht => hterminals t ?_
  rcases dropEquals_cases (Terminal.ofTokens reading.locale tokens) with heq | ⟨u, heq, -⟩
  · rwa [heq] at ht
  · rw [heq]
    exact List.mem_cons_of_mem u ht

end Parser

end SheetFormula
