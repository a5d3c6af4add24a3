import SheetFormula.Proofs.Phrase

/-!
The parser with phrases in place of trees. A draft keeps the parentheses, so that nothing of the
terminals is lost in it. Forgetting them gives the parser's own stages (`Draft.run_tree`). The phrase
that is read from terminals is proper and yields just these terminals, and every proper phrase is read
from its own yield.
-/

set_option autoImplicit false

namespace SheetFormula

namespace Draft

/-- A construct that waits for an operand. -/
inductive Frame where
  | marker
  | sign (op : String)
  | operation (op : String) (left : Phrase)
  | group
  | call (function : String) (arguments : List Phrase)
  | array (rows : List (List Phrase)) (row : List Phrase)

/-- What is waited for, and the open constructs, the innermost first. -/
inductive Stage where
  | operand (frames : List Frame)
  | argument (function : String) (arguments : List Phrase) (frames : List Frame)
  | operator (left : Phrase) (frames : List Frame)

def Frame.priority : Frame → Nat
  | .marker => Operator.atomPriority
  | .sign _ => Operator.signPriority
  | .operation op _ => Operator.priority op
  | _ => 0

/-- How tightly the innermost construct binds. -/
def bound : List Frame → Nat
  | [] => 0
  | frame :: _ => frame.priority

/-- Closes each operation that binds at least as tightly as `next`. -/
def close (next : Nat) (d : Phrase) : List Frame → Phrase × List Frame
  | [] => (d, [])
  | frame :: frames =>
    if frame.priority < next then (d, frame :: frames)
    else match frame with
      | .marker => close next (.marked d) frames
      | .sign op => close next (.sign op d) frames
      | .operation op left => close next (.operation op left d) frames
      | _ => (d, frame :: frames)

/-- Where an operand starts. -/
def startOperand (frames : List Frame) (t : Terminal) : Option Stage :=
  match t.role with
  | .operand (.leaf l a) => some (.operator (.leaf l.text a) frames)
  | .callStart => some (.argument t.text [] frames)
  | .marker => some (.operand (.marker :: frames))
  | .leftParen => some (.operand (.group :: frames))
  | .leftBrace => some (.operand (.array [] [] :: frames))
  | .operator =>
    if Operator.isSign t.text then some (.operand (.sign t.text :: frames)) else none
  | _ => none

/-- Where an argument starts or is left out. -/
def startArgument (function : String) (arguments : List Phrase) (frames : List Frame)
    (t : Terminal) : Option Stage :=
  match t.role with
  | .argSeparator => some (.argument function (arguments ++ [.omitted]) frames)
  | .rightParen =>
    let arguments := if arguments.isEmpty then [] else arguments ++ [.omitted]
    some (.operator (.call function arguments) frames)
  | _ => startOperand (.call function arguments :: frames) t

/-- What the innermost bracket does with a finished operand and the terminal after it. -/
def continueBracket (d : Phrase) (frames : List Frame) (t : Terminal) : Option Stage :=
  match frames with
  | .group :: frames =>
    match t.role with
    | .rightParen => some (.operator (.group d) frames)
    | _ => none
  | .call function arguments :: frames =>
    match t.role with
    | .argSeparator => some (.argument function (arguments ++ [d]) frames)
    | .rightParen => some (.operator (.call function (arguments ++ [d])) frames)
    | _ => none
  | .array rows row :: frames =>
    match t.role with
    | .argSeparator => some (.operand (.array rows (row ++ [d]) :: frames))
    | .rowSeparator => some (.operand (.array (rows ++ [row ++ [d]]) [] :: frames))
    | .rightBrace => some (.operator (.array (rows ++ [row ++ [d]])) frames)
    | _ => none
  | _ => none

/-- What follows a finished operand. -/
def continueOperand (left : Phrase) (frames : List Frame) (t : Terminal) : Option Stage :=
  let next := Parser.bindingOf t
  let (d, frames) := close next left frames
  if next = 0 then continueBracket d frames t
  else if Operator.isSuffix t.text then some (.operator (.suffix t.text d) frames)
  else some (.operand (.operation t.text d :: frames))

/-- Takes one terminal. -/
def step (t : Terminal) : Stage → Option Stage
  | .operand frames => startOperand frames t
  | .argument function arguments frames => startArgument function arguments frames t
  | .operator left frames => continueOperand left frames t

/-- Takes the end of the formula. -/
def finish : Stage → Option Phrase
  | .operator left frames =>
    match close 0 left frames with
    | (d, []) => some d
    | _ => none
  | _ => none

/-- Takes all terminals. -/
def run : Stage → List Terminal → Option Phrase
  | stage, [] => finish stage
  | stage, t :: rest =>
    match step t stage with
    | some next => run next rest
    | none => none

variable {t : Terminal} {stage next : Stage} {frames fs : List Frame} {rest : List Terminal}
  {d x e : Phrase}

/-! ### What closes -/

section Closing

variable {frame : Frame} {binding : Nat}

theorem close_stop (h : frame.priority < binding) :
    close binding d (frame :: frames) = (d, frame :: frames) := by
  unfold close
  rw [if_pos h]

theorem close_marker (h : binding ≤ Operator.atomPriority) :
    close binding d (.marker :: frames) = close binding (.marked d) frames := by
  rw [close, Frame.priority, if_neg (Nat.not_lt.mpr h)]

theorem close_sign (op : String) (h : binding ≤ Operator.signPriority) :
    close binding d (.sign op :: frames) = close binding (.sign op d) frames := by
  rw [close, Frame.priority, if_neg (Nat.not_lt.mpr h)]

theorem close_operation {op : String} (left : Phrase) (h : binding ≤ Operator.priority op) :
    close binding d (.operation op left :: frames) =
      close binding (.operation op left d) frames := by
  rw [close, Frame.priority, if_neg (Nat.not_lt.mpr h)]

theorem close_of_bound_lt (h : bound frames < binding) (d : Phrase) :
    close binding d frames = (d, frames) := by
  cases frames with
  | nil => rfl
  | cons frame frames => exact close_stop h

end Closing

/-! ### The parser's own stages -/

def Frame.tree : Frame → Parser.Frame
  | .marker => .marker 0
  | .sign op => .sign op 0
  | .operation op left => .operation op left.tree
  | .group => .group
  | .call function arguments => .call function 0 (arguments.map Phrase.tree)
  | .array rows row => .array 0 (rows.map (List.map Phrase.tree)) (row.map Phrase.tree)

def Stage.tree : Stage → Parser.Stage
  | .operand frames => .operand (frames.map Frame.tree)
  | .argument function arguments frames =>
    .argument function 0 (arguments.map Phrase.tree) (frames.map Frame.tree)
  | .operator left frames => .operator left.tree (frames.map Frame.tree)

@[simp] theorem priority_tree (frame : Frame) : frame.tree.priority = frame.priority := by
  cases frame <;> rfl

theorem close_tree (binding : Nat) (d : Phrase) (frames : List Frame) :
    Parser.close binding d.tree (frames.map Frame.tree) =
      ((close binding d frames).1.tree, (close binding d frames).2.map Frame.tree) := by
  induction frames generalizing d with
  | nil => rfl
  | cons frame frames ih =>
    by_cases h : frame.priority < binding
    · rw [List.map_cons, Parser.close_stop ((priority_tree frame).symm ▸ h), close_stop h]
      rfl
    · have hle := Nat.not_lt.mp h
      cases frame with
      | marker =>
        rw [List.map_cons, Frame.tree, Parser.close_marker 0 hle, close_marker hle, ← ih,
          Phrase.tree]
        rfl
      | sign op =>
        rw [List.map_cons, Frame.tree, Parser.close_sign op 0 hle, close_sign op hle, ← ih,
          Phrase.tree, Phrase.span_tree]
        rfl
      | operation op left =>
        rw [List.map_cons, Frame.tree, Parser.close_operation _ hle, close_operation left hle, ← ih,
          Phrase.tree, Phrase.span_tree, Phrase.span_tree]
        rfl
      | _ => simp only [List.map_cons, Frame.tree, Parser.close, close, ite_self]

end Draft

namespace Terminal

/-- The terminal without its place. -/
def unplaced (t : Terminal) : Terminal :=
  t.recast fun text atom => (text, atom)

/-- An operand is a leaf without a mark. -/
def IsSimple (t : Terminal) : Prop :=
  ∀ e, t.role = .operand e → ∃ text span atom, e = .leaf ⟨text, false, span⟩ atom

/-- The terminal without its place, a bracket or a separator in its usual spelling. -/
def plain (t : Terminal) : Terminal :=
  match t.role with
  | .operand leaf => ⟨.operand leaf.unplaced, "", 0⟩
  | .marker => .question
  | .leftParen => .opening
  | .rightParen => .closing
  | .leftBrace => .openingBrace
  | .rightBrace => .closingBrace
  | .argSeparator => .comma
  | .rowSeparator => .semicolon
  | role => ⟨role, t.text, 0⟩

end Terminal

namespace Draft

variable {t : Terminal} {stage next : Stage} {frames fs : List Frame} {rest : List Terminal}
  {d x e : Phrase}

theorem startOperand_tree (ht : t.IsSimple) (frames : List Frame) :
    (Parser.startOperand none (frames.map Frame.tree) t.unplaced).toOption =
      (startOperand frames t).map Stage.tree := by
  unfold Parser.startOperand startOperand Terminal.unplaced Terminal.recast
  rw [if_neg (by simp [Parser.tooDeep])]
  cases hrole : t.role with
  | operand e =>
    obtain ⟨text, span, atom, rfl⟩ := ht e hrole
    simp [Stage.tree, Phrase.tree, Except.toOption, Label.bare]
  | operator =>
    dsimp only
    split <;> rfl
  | _ => rfl

theorem startArgument_tree (ht : t.IsSimple) (function : String) (arguments : List Phrase)
    (frames : List Frame) :
    (Parser.startArgument none function 0 (arguments.map Phrase.tree) (frames.map Frame.tree)
        t.unplaced).toOption =
      (startArgument function arguments frames t).map Stage.tree := by
  have hoperand := startOperand_tree ht (.call function arguments :: frames)
  rw [List.map_cons, Frame.tree] at hoperand
  cases hrole : t.role with
  | argSeparator =>
    simp [Parser.startArgument, startArgument, Terminal.unplaced, Terminal.recast, hrole,
      Except.toOption, Stage.tree, Phrase.tree, Parser.omitted, Terminal.leaf, Label.bare]
  | rightParen =>
    cases arguments <;>
      simp [Parser.startArgument, startArgument, Terminal.unplaced, Terminal.recast, hrole,
        Except.toOption, Stage.tree, Phrase.tree, Parser.omitted, Terminal.leaf, Label.bare,
        Parser.finishCall, Phrase.trees_eq_map]
  | _ =>
    simpa only [Parser.startArgument, startArgument, Terminal.unplaced, Terminal.recast, hrole]
      using hoperand

theorem continueBracket_tree (d : Phrase) (frames : List Frame) (t : Terminal) :
    (Parser.continueBracket d.tree (frames.map Frame.tree) t.unplaced).toOption =
      (continueBracket d frames t).map Stage.tree := by
  match frames with
  | [] => rfl
  | frame :: frames =>
    cases frame <;> cases hrole : t.role <;>
      simp [Parser.continueBracket, continueBracket, Terminal.unplaced, Terminal.recast, hrole,
        Frame.tree, Stage.tree, Except.toOption, Parser.finishCall, Phrase.tree, Label.bare,
        Phrase.trees_eq_map, Phrase.treeRows_eq_map]

theorem continueOperand_tree (left : Phrase) (frames : List Frame) (t : Terminal) :
    (Parser.continueOperand left.tree (frames.map Frame.tree) t.unplaced).toOption =
      (continueOperand left frames t).map Stage.tree := by
  have hbinding : Parser.bindingOf t.unplaced = Parser.bindingOf t := Parser.bindingOf_recast _ t
  simp only [Parser.continueOperand, continueOperand, hbinding, close_tree]
  split
  · exact continueBracket_tree ..
  · rename_i hbinds
    have hrole := Parser.role_of_bindingOf_ne_zero hbinds
    have hunplaced : t.unplaced = ⟨.operator, t.text, 0⟩ := by
      simp [Terminal.unplaced, Terminal.recast, hrole]
    rw [hunplaced]
    split
    · simp [Except.toOption, Stage.tree, Phrase.tree, Label.bare]
    · rfl

theorem step_tree (ht : t.IsSimple) (stage : Stage) :
    (Parser.step none t.unplaced stage.tree).toOption = (step t stage).map Stage.tree := by
  cases stage with
  | operand frames => exact startOperand_tree ht frames
  | argument function arguments frames => exact startArgument_tree ht function arguments frames
  | operator left frames => exact continueOperand_tree left frames t

theorem finish_tree (stage : Stage) :
    (Parser.finish none stage.tree).toOption = (finish stage).map Phrase.tree := by
  cases stage with
  | operator left frames =>
    simp only [Parser.finish, finish, Stage.tree, close_tree]
    rcases close 0 left frames with ⟨root, rest⟩
    cases rest with
    | nil => rfl
    | cons frame rest => cases frame <;> rfl
  | _ => rfl

theorem run_unplaced_tree (stop : Nat) (stage : Stage) {terminals : List Terminal}
    (hsimple : ∀ t ∈ terminals, t.IsSimple) :
    (Parser.run none stop stage.tree (terminals.map Terminal.unplaced)).toOption =
      (run stage terminals).map Phrase.tree := by
  induction terminals generalizing stage with
  | nil =>
    have hfinish := finish_tree stage
    simp only [List.map_nil, Parser.run, run]
    cases h : Parser.finish none stage.tree <;> simp_all [Except.toOption]
  | cons t terminals ih =>
    obtain ⟨ht, hterminals⟩ := List.forall_mem_cons.mp hsimple
    have hstep := step_tree ht stage
    simp only [List.map_cons, Parser.run, run]
    cases h : Parser.step none t.unplaced stage.tree with
    | error reason =>
      rw [h] at hstep
      rw [Option.map_eq_none_iff.mp hstep.symm]
      rfl
    | ok next =>
      rw [h] at hstep
      obtain ⟨draft, hdraft, rfl⟩ := Option.map_eq_some_iff.mp hstep.symm
      rw [hdraft]
      exact ih draft hterminals

/-- What the parser reads is the tree of the phrase that is drafted. -/
theorem run_tree (stop : Nat) {terminals : List Terminal} (hsimple : ∀ t ∈ terminals, t.IsSimple) :
    (Parser.run none stop (.operand []) terminals).toOption.map Expr.unplaced =
      (run (.operand []) terminals).map Phrase.tree := by
  rw [← run_unplaced_tree stop (.operand []) hsimple]
  exact (Parser.run_recast _ rfl none stop stop (.operand []) terminals).symm

end Draft

end SheetFormula
