import SheetFormula.Proofs.Draft

/-!
What a draft is made of. Every terminal that is taken stays in the stage, and each construct on the
stack binds more tightly than what encloses it; so the phrase that is read from terminals is proper and
yields them again. Conversely a proper phrase is read from its own yield, wherever it stands, so that no
two proper phrases have one yield.
-/

set_option autoImplicit false

namespace SheetFormula.Draft

variable {t : Terminal} {stage next : Stage} {frames fs : List Frame} {rest : List Terminal}
  {d x e : Phrase}

/-! ### What has been read -/

/-- What a construct has of its terminals. -/
def Frame.yield : Frame → List Terminal
  | .marker => [.question]
  | .sign op => [⟨.operator, op, 0⟩]
  | .operation op left => left.yield ++ [⟨.operator, op, 0⟩]
  | .group => [.opening]
  | .call function arguments =>
    ⟨.callStart, function, 0⟩ :: arguments.flatMap fun a => a.yield ++ [.comma]
  | .array rows row =>
    .openingBrace ::
      (rows.flatMap (fun r => [.comma].intercalate (r.map Phrase.yield) ++ [.semicolon]) ++
        row.flatMap fun c => c.yield ++ [.comma])

def yieldOf : List Frame → List Terminal
  | [] => []
  | frame :: frames => yieldOf frames ++ frame.yield

def Stage.yield : Stage → List Terminal
  | .operand frames => yieldOf frames
  | .argument function arguments frames => yieldOf (.call function arguments :: frames)
  | .operator left frames => yieldOf frames ++ left.yield

/-- The construct has proper operands, and what encloses it binds no more tightly than `bound`. -/
def Frame.Proper (bound : Nat) : Frame → Prop
  | .sign op => Operator.isSign op = true
  | .operation op left =>
    bound < Operator.priority op ∧ Operator.isSuffix op = false ∧ left.Proper ∧
      left.EndsBefore (Operator.priority op) ∧ left.StaysAbove bound
  | .call _ arguments => ∀ a ∈ arguments, a ≠ .omitted → a.Proper
  | .array rows row => (∀ r ∈ rows, r ≠ [] ∧ ∀ c ∈ r, c.Proper) ∧ ∀ c ∈ row, c.Proper
  | _ => True

def AllProper : List Frame → Prop
  | [] => True
  | frame :: frames => frame.Proper (bound frames) ∧ AllProper frames

/-- An operand that is finished closes nothing that follows it. -/
def Stage.Proper : Stage → Prop
  | .operand frames => AllProper frames
  | .argument function arguments frames => AllProper (.call function arguments :: frames)
  | .operator left frames =>
    left.Proper ∧ left.StaysAbove (bound frames) ∧ (∀ binding, left.EndsBefore binding) ∧
      AllProper frames

/-- An operand with the constructs that it closed: it is proper where it stands, and no terminal is
lost. -/
structure Closed (binding : Nat) (left : Phrase) (frames : List Frame) (d : Phrase)
    (rest : List Frame) : Prop where
  proper : d.Proper
  above : d.StaysAbove (bound rest)
  before : d.EndsBefore binding
  enclosing : AllProper rest
  yield : yieldOf rest ++ d.yield = yieldOf frames ++ left.yield
  stops : 0 < binding → bound rest < binding

theorem Closed.of_yield {binding : Nat} {left left' d : Phrase} {frames frames' rest : List Frame}
    (h : Closed binding left frames d rest)
    (hyield : yieldOf frames ++ left.yield = yieldOf frames' ++ left'.yield) :
    Closed binding left' frames' d rest :=
  { h with yield := h.yield.trans hyield }

theorem closed_close {binding : Nat} (hd : d.Proper) (habove : d.StaysAbove (bound frames))
    (hbefore : d.EndsBefore binding) (hframes : AllProper frames) :
    Closed binding d frames (close binding d frames).1 (close binding d frames).2 := by
  induction frames generalizing d with
  | nil => exact ⟨hd, habove, hbefore, hframes, rfl, id⟩
  | cons frame frames ih =>
    by_cases h : frame.priority < binding
    · rw [close_stop h]
      exact ⟨hd, habove, hbefore, hframes, rfl, fun _ => h⟩
    · have hle := Nat.not_lt.mp h
      obtain ⟨hframe, hrest⟩ := hframes
      cases frame with
      | marker =>
        rw [close_marker hle]
        refine (ih (.marked hd habove) trivial ⟨hle, hbefore⟩ hrest).of_yield ?_
        simp [yieldOf, Frame.yield, Phrase.yield]
      | sign op =>
        rw [close_sign op hle]
        refine (ih (.sign hframe hd habove) trivial ⟨hle, hbefore⟩ hrest).of_yield ?_
        simp [yieldOf, Frame.yield, Phrase.yield]
      | operation op left =>
        obtain ⟨hbound, hbinary, hleft, hends, hstays⟩ := hframe
        rw [close_operation left hle]
        refine (ih (.operation (Nat.zero_lt_of_lt hbound) hbinary hleft hd hends habove)
          ⟨hbound, hstays⟩ ⟨hle, hbefore⟩ hrest).of_yield ?_
        simp [yieldOf, Frame.yield, Phrase.yield]
      | _ =>
        simp only [close, ite_self]
        exact ⟨hd, habove, hbefore, ⟨hframe, hrest⟩, rfl, fun hpos => hpos⟩

/-- A stage that a terminal leads to: it is proper and has taken the terminal. -/
structure Advance (t : Terminal) (stage next : Stage) : Prop where
  proper : next.Proper
  yield : next.yield = stage.yield ++ [t.plain]

theorem advance_startOperand (ht : t.IsSimple) (hframes : AllProper frames)
    (h : startOperand frames t = some next) : Advance t (.operand frames) next := by
  unfold startOperand at h
  split at h
  · rename_i l a hrole
    obtain ⟨text, span, atom, he⟩ := ht _ hrole
    cases he
    cases h
    refine ⟨⟨.leaf text a, trivial, fun _ => trivial, hframes⟩, ?_⟩
    simp [Stage.yield, Phrase.yield, Terminal.plain, hrole, Expr.unplaced_leaf, Label.unplaced,
      Label.bare, Terminal.atom]
  · rename_i hrole
    cases h
    refine ⟨⟨fun a ha => absurd ha List.not_mem_nil, hframes⟩, ?_⟩
    simp [Stage.yield, yieldOf, Frame.yield, Terminal.plain, hrole]
  · rename_i hrole
    cases h
    exact ⟨⟨trivial, hframes⟩, by simp [Stage.yield, yieldOf, Frame.yield, Terminal.plain, hrole]⟩
  · rename_i hrole
    cases h
    exact ⟨⟨trivial, hframes⟩, by simp [Stage.yield, yieldOf, Frame.yield, Terminal.plain, hrole]⟩
  · rename_i hrole
    cases h
    refine ⟨⟨⟨by simp, by simp⟩, hframes⟩, ?_⟩
    simp [Stage.yield, yieldOf, Frame.yield, Terminal.plain, hrole]
  · rename_i hrole
    split at h
    · rename_i hsign
      cases h
      exact ⟨⟨hsign, hframes⟩, by simp [Stage.yield, yieldOf, Frame.yield, Terminal.plain, hrole]⟩
    · cases h
  · cases h

theorem intercalate_concat {α : Type} (separator : α) (ls : List (List α)) (l : List α) :
    [separator].intercalate (ls ++ [l]) = (ls.flatMap fun m => m ++ [separator]) ++ l := by
  induction ls with
  | nil => simp
  | cons m ls ih =>
    rw [List.flatMap_cons, List.append_assoc, ← ih]
    cases ls <;> simp [List.intercalate_cons_cons]

theorem yield_call_concat (function : String) (arguments : List Phrase) (d : Phrase) :
    (Phrase.call function (arguments ++ [d])).yield =
      (Frame.call function arguments).yield ++ d.yield ++ [.closing] := by
  simp [Phrase.yield, Phrase.yields_eq_map, intercalate_concat, Frame.yield, List.flatMap_map]

theorem yield_array_concat (rows : List (List Phrase)) (row : List Phrase) (d : Phrase) :
    (Phrase.array (rows ++ [row ++ [d]])).yield =
      (Frame.array rows row).yield ++ d.yield ++ [.closingBrace] := by
  simp [Phrase.yield, Phrase.yieldRows_eq_map, intercalate_concat, Frame.yield, List.flatMap_map]

theorem proper_call_concat {function : String} {arguments : List Phrase}
    (harguments : ∀ a ∈ arguments, a ≠ .omitted → a.Proper) (hd : d.Proper) :
    (Phrase.call function (arguments ++ [d])).Proper := by
  refine .call (Parser.forall_mem_append_singleton harguments fun _ => hd) fun h => ?_
  have hlast := congrArg List.getLast? h
  simp only [List.getLast?_concat, List.getLast?_singleton, Option.some.injEq] at hlast
  subst hlast
  cases hd

theorem advance_startArgument (ht : t.IsSimple) {function : String} {arguments : List Phrase}
    (hframes : AllProper (.call function arguments :: frames))
    (h : startArgument function arguments frames t = some next) :
    Advance t (.argument function arguments frames) next := by
  have ⟨harguments, hrest⟩ := hframes
  unfold startArgument at h
  split at h
  · rename_i hrole
    cases h
    refine ⟨⟨Parser.forall_mem_append_singleton harguments fun h => absurd rfl h, hrest⟩, ?_⟩
    simp [Stage.yield, yieldOf, Frame.yield, Phrase.yield, Terminal.plain, hrole]
  · rename_i hrole
    cases h
    cases arguments with
    | nil =>
      refine ⟨⟨.call (by simp) (by simp), trivial, fun _ => trivial, hrest⟩, ?_⟩
      simp [Stage.yield, yieldOf, Frame.yield, Phrase.yield, Phrase.yields, Terminal.plain, hrole]
    | cons a as =>
      refine ⟨⟨.call (Parser.forall_mem_append_singleton harguments fun h => absurd rfl h) (by simp),
        trivial, fun _ => trivial, hrest⟩, ?_⟩
      change yieldOf frames ++ (Phrase.call function ((a :: as) ++ [.omitted])).yield = _
      rw [yield_call_concat]
      simp [Stage.yield, yieldOf, Phrase.yield, Terminal.plain, hrole]
  · have hoperand := advance_startOperand ht hframes h
    exact ⟨hoperand.proper, hoperand.yield⟩

theorem advance_continueBracket {left : Phrase} (hclosed : Closed 0 left fs d frames)
    (h : continueBracket d frames t = some next) : Advance t (.operator left fs) next := by
  obtain ⟨hd, -, -, hframes, hyield, -⟩ := hclosed
  unfold continueBracket at h
  split at h
  · obtain ⟨-, hrest⟩ := hframes
    split at h
    · rename_i hrole
      cases h
      refine ⟨⟨.group hd, trivial, fun _ => trivial, hrest⟩, ?_⟩
      rw [Stage.yield, Stage.yield, ← hyield]
      simp [yieldOf, Frame.yield, Phrase.yield, Terminal.plain, hrole]
    · cases h
  · obtain ⟨harguments, hrest⟩ := hframes
    split at h
    · rename_i hrole
      cases h
      refine ⟨⟨Parser.forall_mem_append_singleton harguments fun _ => hd, hrest⟩, ?_⟩
      rw [Stage.yield, Stage.yield, ← hyield]
      simp [yieldOf, Frame.yield, Terminal.plain, hrole]
    · rename_i hrole
      cases h
      refine ⟨⟨proper_call_concat harguments hd, trivial, fun _ => trivial, hrest⟩, ?_⟩
      rw [Stage.yield, Stage.yield, ← hyield, yield_call_concat]
      simp [yieldOf, Terminal.plain, hrole]
    · cases h
  · obtain ⟨⟨hrows, hrow⟩, hrest⟩ := hframes
    have hlast := Parser.forall_mem_append_singleton hrow hd
    split at h
    · rename_i hrole
      cases h
      refine ⟨⟨⟨hrows, hlast⟩, hrest⟩, ?_⟩
      rw [Stage.yield, Stage.yield, ← hyield]
      simp [yieldOf, Frame.yield, Terminal.plain, hrole]
    · rename_i hrole
      cases h
      refine ⟨⟨⟨Parser.forall_mem_append_singleton hrows ⟨by simp, hlast⟩, by simp⟩, hrest⟩, ?_⟩
      rw [Stage.yield, Stage.yield, ← hyield]
      simp [yieldOf, Frame.yield, Terminal.plain, hrole, intercalate_concat, List.flatMap_map]
    · rename_i hrole
      cases h
      have hall := Parser.forall_mem_append_singleton hrows ⟨by simp, hlast⟩
      refine ⟨⟨.array (by simp) (fun r hr => (hall r hr).1) fun r hr => (hall r hr).2, trivial,
        fun _ => trivial, hrest⟩, ?_⟩
      rw [Stage.yield, Stage.yield, ← hyield, yield_array_concat]
      simp [yieldOf, Terminal.plain, hrole]
    · cases h
  · cases h

theorem advance_continueOperand {left : Phrase} (hstage : (Stage.operator left frames).Proper)
    (h : continueOperand left frames t = some next) : Advance t (.operator left frames) next := by
  obtain ⟨hleft, habove, hbefore, hframes⟩ := hstage
  have hclosed := closed_close hleft habove (hbefore (Parser.bindingOf t)) hframes
  simp only [continueOperand] at h
  split at h
  · rename_i hbinding
    rw [hbinding] at hclosed h
    exact advance_continueBracket hclosed h
  · rename_i hbinds
    have hrole := Parser.role_of_bindingOf_ne_zero hbinds
    have hbinding := Parser.bindingOf_of_operator hrole
    rw [hbinding] at hclosed hbinds h
    have hbound := hclosed.stops (Nat.pos_of_ne_zero hbinds)
    split at h
    · rename_i hsuffix
      cases h
      refine ⟨⟨.suffix hsuffix hclosed.proper hclosed.before, ⟨hbound, hclosed.above⟩,
        fun _ => trivial, hclosed.enclosing⟩, ?_⟩
      rw [Stage.yield, Stage.yield, ← hclosed.yield]
      simp [Phrase.yield, Terminal.plain, hrole]
    · rename_i hbinary
      cases h
      refine ⟨⟨⟨hbound, by simpa using hbinary, hclosed.proper, hclosed.before, hclosed.above⟩,
        hclosed.enclosing⟩, ?_⟩
      rw [Stage.yield, Stage.yield, ← hclosed.yield]
      simp [yieldOf, Frame.yield, Terminal.plain, hrole]

theorem advance_step (ht : t.IsSimple) (hstage : stage.Proper) (h : step t stage = some next) :
    Advance t stage next := by
  cases stage with
  | operand frames => exact advance_startOperand ht hstage h
  | argument function arguments frames => exact advance_startArgument ht hstage h
  | operator left frames => exact advance_continueOperand hstage h

theorem proper_of_finish (hstage : stage.Proper) (h : finish stage = some d) :
    d.Proper ∧ d.yield = stage.yield := by
  unfold finish at h
  split at h
  · rename_i left frames
    obtain ⟨hleft, habove, hbefore, hframes⟩ := hstage
    have hclosed := closed_close hleft habove (hbefore 0) hframes
    split at h
    · rename_i heq
      rw [heq] at hclosed
      cases h
      exact ⟨hclosed.proper, hclosed.yield⟩
    · cases h
  · cases h

theorem proper_of_run_stage {terminals : List Terminal} (hsimple : ∀ t ∈ terminals, t.IsSimple)
    (hstage : stage.Proper) (h : run stage terminals = some d) :
    d.Proper ∧ d.yield = stage.yield ++ terminals.map Terminal.plain := by
  induction terminals generalizing stage with
  | nil =>
    rw [List.map_nil, List.append_nil]
    exact proper_of_finish hstage h
  | cons t terminals ih =>
    obtain ⟨ht, hterminals⟩ := List.forall_mem_cons.mp hsimple
    simp only [run] at h
    split at h
    · rename_i next hstep
      obtain ⟨hproper, hyield⟩ := advance_step ht hstage hstep
      obtain ⟨hd, hdyield⟩ := ih hterminals hproper h
      exact ⟨hd, by rw [hdyield, hyield, List.map_cons, List.append_assoc]; rfl⟩
    · cases h

/-- What is read is a proper phrase, and it yields the terminals that it was read from. -/
theorem proper_of_run {terminals : List Terminal} (hsimple : ∀ t ∈ terminals, t.IsSimple)
    (h : run (.operand []) terminals = some d) :
    d.Proper ∧ d.yield = terminals.map Terminal.plain := by
  have hstart : (Stage.operand []).Proper := trivial
  exact proper_of_run_stage hsimple hstart h

/-! ### Reading proper phrases -/

theorem run_step (h : step t stage = some next) : run stage (t :: rest) = run next rest := by
  rw [run, h]

/-- An operator takes the operand that is closed before it. -/
theorem run_operator {op : String} (hbinds : 0 < Operator.priority op)
    (hclose : close (Operator.priority op) x fs = (e, frames)) :
    run (.operator x fs) (⟨.operator, op, 0⟩ :: rest) =
      if Operator.isSuffix op then run (.operator (.suffix op e) frames) rest
      else run (.operand (.operation op e :: frames)) rest := by
  have hne : ¬ Operator.priority op = 0 := Nat.pos_iff_ne_zero.mp hbinds
  split
  · refine run_step ?_
    simp only [step, continueOperand, Parser.bindingOf, hclose, if_neg hne]
    rw [if_pos ‹_›]
  · refine run_step ?_
    simp only [step, continueOperand, Parser.bindingOf, hclose, if_neg hne]
    rw [if_neg ‹_›]

/-- A bracket takes the operand that is closed before it. -/
theorem run_bracket (hclose : close 0 x fs = (e, frames)) (hbinding : Parser.bindingOf t = 0)
    (hbracket : continueBracket e frames t = some next) :
    run (.operator x fs) (t :: rest) = run next rest := by
  refine run_step ?_
  simp only [step, continueOperand, hbinding, hclose, if_true, hbracket]

/-- The phrase is read from its yield, wherever its operators leave the open constructs alone. What is
still open after it closes before every operator that the phrase ends before. -/
def IsRead (d : Phrase) : Prop :=
  ∀ (frames : List Frame) (rest : List Terminal), d.StaysAbove (bound frames) →
    ∃ x fs, run (.operand frames) (d.yield ++ rest) = run (.operator x fs) rest ∧
      ∀ next, d.EndsBefore next → close next x fs = close next d frames

theorem isRead_leaf (text : String) (atom : Atom) : IsRead (.leaf text atom) :=
  fun frames _ _ => ⟨_, frames, run_step rfl, fun _ _ => rfl⟩

theorem IsRead.group (h : IsRead d) (habove : d.StaysAbove 0) : IsRead (.group d) := by
  intro frames rest _
  obtain ⟨x, fs, hrun, hclose⟩ := h (.group :: frames) (.closing :: rest) habove
  refine ⟨.group d, frames, ?_, fun _ _ => rfl⟩
  have hstep : step .opening (.operand frames) = some (.operand (.group :: frames)) := rfl
  rw [Phrase.yield, List.cons_append, List.append_assoc, run_step hstep]
  exact hrun.trans (run_bracket (hclose 0 d.endsBefore_zero) rfl rfl)

theorem IsRead.marked (h : IsRead d) (habove : d.StaysAbove Operator.atomPriority) :
    IsRead (.marked d) := by
  intro frames rest _
  obtain ⟨x, fs, hrun, hclose⟩ := h (.marker :: frames) rest habove
  refine ⟨x, fs, ?_, fun next hnext => ?_⟩
  · have hstep : step .question (.operand frames) = some (.operand (.marker :: frames)) := rfl
    rw [Phrase.yield, List.cons_append, run_step hstep, hrun]
  · rw [hclose next hnext.2, close_marker hnext.1]

theorem IsRead.sign {op : String} (h : IsRead d) (hsign : Operator.isSign op = true)
    (habove : d.StaysAbove Operator.signPriority) : IsRead (.sign op d) := by
  intro frames rest _
  obtain ⟨x, fs, hrun, hclose⟩ := h (.sign op :: frames) rest habove
  refine ⟨x, fs, ?_, fun next hnext => ?_⟩
  · have hstep : step ⟨.operator, op, 0⟩ (.operand frames) =
        some (.operand (.sign op :: frames)) := by
      simp [step, startOperand, hsign]
    rw [Phrase.yield, List.cons_append, run_step hstep, hrun]
  · rw [hclose next hnext.2, close_sign op hnext.1]

theorem IsRead.suffix {op : String} (h : IsRead d) (hsuffix : Operator.isSuffix op = true)
    (hbefore : d.EndsBefore (Operator.priority op)) : IsRead (.suffix op d) := by
  intro frames rest habove
  obtain ⟨x, fs, hrun, hclose⟩ := h frames (⟨.operator, op, 0⟩ :: rest) habove.2
  refine ⟨.suffix op d, frames, ?_, fun _ _ => rfl⟩
  have hclosed := (hclose _ hbefore).trans (close_of_bound_lt habove.1 d)
  rw [Phrase.yield, List.append_assoc, List.singleton_append, hrun,
    run_operator (Nat.zero_lt_of_lt habove.1) hclosed, if_pos hsuffix]

theorem IsRead.operation {op : String} {a b : Phrase} (ha : IsRead a) (hb : IsRead b)
    (hbinary : Operator.isSuffix op = false) (hbefore : a.EndsBefore (Operator.priority op))
    (hright : b.StaysAbove (Operator.priority op)) : IsRead (.operation op a b) := by
  intro frames rest habove
  obtain ⟨x, fs, hrun, hclose⟩ := ha frames (⟨.operator, op, 0⟩ :: (b.yield ++ rest)) habove.2
  obtain ⟨y, gs, hrun', hclose'⟩ := hb (.operation op a :: frames) rest hright
  have hclosed := (hclose _ hbefore).trans (close_of_bound_lt habove.1 a)
  refine ⟨y, gs, ?_, fun next hnext => ?_⟩
  · rw [Phrase.yield, List.append_assoc, List.cons_append, hrun,
      run_operator (Nat.zero_lt_of_lt habove.1) hclosed, if_neg (by simp [hbinary]), hrun']
  · rw [hclose' next hnext.2, close_operation _ hnext.1]

/-! ### Calls and arrays -/

theorem intercalate_map_cons {α β : Type} (f : α → List β) (separator : β) (a b : α) (as : List α)
    (rest : List β) :
    [separator].intercalate ((a :: b :: as).map f) ++ rest =
      f a ++ separator :: ([separator].intercalate ((b :: as).map f) ++ rest) := by
  simp [List.intercalate_cons_cons]

theorem run_argument (h : d.Proper) (function : String) (done : List Phrase) (frames : List Frame)
    (rest : List Terminal) :
    run (.argument function done frames) (d.yield ++ rest) =
      run (.operand (.call function done :: frames)) (d.yield ++ rest) := by
  obtain ⟨t, ts, hyield, hseparator, hparen⟩ := h.exists_cons
  have hstep : step t (.argument function done frames) =
      step t (.operand (.call function done :: frames)) := by
    unfold step startArgument
    cases hrole : t.role with
    | argSeparator => exact absurd hrole hseparator
    | rightParen => exact absurd hrole hparen
    | _ => rfl
  rw [hyield, List.cons_append, run, run, hstep]

/-- An argument is taken up by its call with the bracket after it. -/
theorem run_operand_of_call (h : d.Proper) (hread : IsRead d) (function : String)
    (done : List Phrase) (hbinding : Parser.bindingOf t = 0)
    (hbracket : continueBracket d (.call function done :: frames) t = some next) :
    run (.argument function done frames) (d.yield ++ t :: rest) = run next rest := by
  obtain ⟨x, fs, hrun, hclose⟩ := hread (.call function done :: frames) (t :: rest) h.staysAbove_zero
  rw [run_argument h, hrun]
  exact run_bracket (hclose 0 d.endsBefore_zero) hbinding hbracket

/-- The arguments that are still to be read complete those that have been read. -/
theorem run_arguments (function : String) (frames : List Frame) (rest : List Terminal)
    (a : Phrase) (as done : List Phrase)
    (hread : ∀ d ∈ a :: as, d ≠ .omitted → d.Proper ∧ IsRead d)
    (hsingle : done = [] → a :: as ≠ [.omitted]) :
    run (.argument function done frames)
        ([Terminal.comma].intercalate ((a :: as).map Phrase.yield) ++ .closing :: rest) =
      run (.operator (.call function (done ++ a :: as)) frames) rest := by
  induction as generalizing a done with
  | nil =>
    rw [List.map_singleton, List.intercalate_singleton]
    by_cases ha : a = .omitted
    · subst ha
      have hdone : done ≠ [] := fun h => hsingle h rfl
      rw [Phrase.yield, List.nil_append]
      refine run_step ?_
      simp only [step, startArgument, Terminal.closing, List.isEmpty_iff, if_neg hdone]
    · obtain ⟨hproper, hisRead⟩ := hread a List.mem_cons_self ha
      exact run_operand_of_call hproper hisRead function done rfl rfl
  | cons b as ih =>
    have hrest := ih b (done ++ [a]) (fun d hd => hread d (List.mem_cons_of_mem a hd)) (by simp)
    rw [List.append_assoc, List.singleton_append] at hrest
    rw [intercalate_map_cons, ← hrest]
    by_cases ha : a = .omitted
    · subst ha
      rw [Phrase.yield, List.nil_append]
      exact run_step rfl
    · obtain ⟨hproper, hisRead⟩ := hread a List.mem_cons_self ha
      exact run_operand_of_call hproper hisRead function done rfl rfl

theorem isRead_call {function : String} {as : List Phrase}
    (hread : ∀ a ∈ as, a ≠ .omitted → a.Proper ∧ IsRead a) (hsingle : as ≠ [.omitted]) :
    IsRead (.call function as) := by
  intro frames rest _
  refine ⟨.call function as, frames, ?_, fun _ _ => rfl⟩
  have hstep : step ⟨.callStart, function, 0⟩ (.operand frames) =
      some (.argument function [] frames) := rfl
  rw [Phrase.yield, Phrase.yields_eq_map, List.cons_append, List.append_assoc,
    List.singleton_append, run_step hstep]
  cases as with
  | nil => exact run_step rfl
  | cons a as => exact run_arguments function frames rest a as [] hread fun _ => hsingle

/-- The cells that are still to be read complete their row. -/
theorem run_cells (rows : List (List Phrase)) (frames : List Frame) (c : Phrase)
    (cs done : List Phrase) (hread : ∀ d ∈ c :: cs, d.Proper ∧ IsRead d)
    (hbinding : Parser.bindingOf t = 0)
    (hbracket : ∀ e row, row ++ [e] = done ++ c :: cs →
      continueBracket e (.array rows row :: frames) t = some next) :
    run (.operand (.array rows done :: frames))
        ([Terminal.comma].intercalate ((c :: cs).map Phrase.yield) ++ t :: rest) =
      run next rest := by
  obtain ⟨hproper, hisRead⟩ := hread c List.mem_cons_self
  induction cs generalizing c done with
  | nil =>
    obtain ⟨x, fs, hrun, hclose⟩ :=
      hisRead (.array rows done :: frames) (t :: rest) hproper.staysAbove_zero
    rw [List.map_singleton, List.intercalate_singleton, hrun]
    exact run_bracket (hclose 0 c.endsBefore_zero) hbinding (hbracket _ _ rfl)
  | cons b cs ih =>
    have hrest := List.forall_mem_cons.mp hread
    obtain ⟨x, fs, hrun, hclose⟩ := hisRead (.array rows done :: frames)
      (.comma :: ([Terminal.comma].intercalate ((b :: cs).map Phrase.yield) ++ t :: rest))
      hproper.staysAbove_zero
    rw [intercalate_map_cons, hrun, run_bracket (hclose 0 c.endsBefore_zero) rfl rfl]
    refine ih b (done ++ [c]) hrest.2 ?_ (hrest.2 b List.mem_cons_self).1
      (hrest.2 b List.mem_cons_self).2
    intro e row hrow
    exact hbracket e row (by rw [hrow, List.append_assoc]; rfl)

/-- The rows that are still to be read complete the array. -/
theorem run_rows (frames : List Frame) (rest : List Terminal) (r : List Phrase)
    (rs done : List (List Phrase)) (hsome : ∀ r' ∈ r :: rs, r' ≠ [])
    (hread : ∀ r' ∈ r :: rs, ∀ d ∈ r', d.Proper ∧ IsRead d) :
    run (.operand (.array done [] :: frames))
        ([Terminal.semicolon].intercalate
          ((r :: rs).map fun r => [Terminal.comma].intercalate (r.map Phrase.yield)) ++
            .closingBrace :: rest) =
      run (.operator (.array (done ++ r :: rs)) frames) rest := by
  induction rs generalizing r done with
  | nil =>
    obtain ⟨c, cs, rfl⟩ := List.exists_cons_of_ne_nil (hsome r List.mem_cons_self)
    rw [List.map_singleton, List.intercalate_singleton]
    refine run_cells done frames c cs [] (hread _ List.mem_cons_self) rfl ?_
    intro e row hrow
    rw [continueBracket, hrow]
    rfl
  | cons r' rs ih =>
    obtain ⟨hr, hrs⟩ := List.forall_mem_cons.mp hsome
    obtain ⟨hreadRow, hreadRows⟩ := List.forall_mem_cons.mp hread
    obtain ⟨c, cs, rfl⟩ := List.exists_cons_of_ne_nil hr
    have hrest := ih r' (done ++ [c :: cs]) hrs hreadRows
    rw [List.append_assoc, List.singleton_append] at hrest
    rw [intercalate_map_cons, ← hrest]
    refine run_cells done frames c cs [] hreadRow rfl ?_
    intro e row hrow
    rw [continueBracket, hrow]
    rfl

theorem isRead_array {rs : List (List Phrase)} (hsome : rs ≠ []) (hrows : ∀ r ∈ rs, r ≠ [])
    (hread : ∀ r ∈ rs, ∀ c ∈ r, c.Proper ∧ IsRead c) : IsRead (.array rs) := by
  intro frames rest _
  refine ⟨.array rs, frames, ?_, fun _ _ => rfl⟩
  have hstep : step .openingBrace (.operand frames) =
      some (.operand (.array [] [] :: frames)) := rfl
  obtain ⟨r, rs, rfl⟩ := List.exists_cons_of_ne_nil hsome
  rw [Phrase.yield, Phrase.yieldRows_eq_map, List.cons_append, List.append_assoc,
    List.singleton_append, run_step hstep]
  exact run_rows frames rest r rs [] hrows hread

theorem isRead_of_proper (h : d.Proper) : IsRead d := by
  induction h with
  | leaf text atom => exact isRead_leaf text atom
  | group inner ih => exact ih.group inner.staysAbove_zero
  | marked operand above ih => exact ih.marked above
  | sign sign operand above ih => exact ih.sign sign above
  | suffix suffix operand before ih => exact ih.suffix suffix before
  | operation binds binary left right before above ihleft ihright =>
    exact ihleft.operation ihright binary before above
  | call arguments single ih =>
    exact isRead_call (fun a ha homitted => ⟨arguments a ha homitted, ih a ha homitted⟩) single
  | array some rows cells ih =>
    exact isRead_array some rows fun r hr c hc => ⟨cells r hr c hc, ih r hr c hc⟩

/-- A proper phrase is read from its yield. -/
theorem run_yield (h : d.Proper) : run (.operand []) d.yield = some d := by
  obtain ⟨x, fs, hrun, hclose⟩ := isRead_of_proper h [] [] h.staysAbove_zero
  rw [List.append_nil] at hrun
  rw [hrun, run, finish, hclose 0 d.endsBefore_zero]
  rfl

/-! ### Spelling -/

theorem startOperand_plain (ht : t.IsSimple) (frames : List Frame) :
    startOperand frames t.plain = startOperand frames t := by
  unfold startOperand Terminal.plain
  cases hrole : t.role with
  | operand leaf =>
    obtain ⟨text, span, atom, rfl⟩ := ht leaf hrole
    simp [Expr.unplaced_leaf, Label.unplaced]
  | _ => rfl

theorem startArgument_plain (ht : t.IsSimple) (function : String) (arguments : List Phrase)
    (frames : List Frame) :
    startArgument function arguments frames t.plain = startArgument function arguments frames t := by
  have hoperand := startOperand_plain ht (.call function arguments :: frames)
  unfold startArgument
  rw [hoperand]
  unfold Terminal.plain
  cases t.role <;> rfl

theorem continueBracket_plain (d : Phrase) (frames : List Frame) (t : Terminal) :
    continueBracket d frames t.plain = continueBracket d frames t := by
  unfold continueBracket Terminal.plain
  cases t.role <;> rfl

theorem continueOperand_plain (left : Phrase) (frames : List Frame) (t : Terminal) :
    continueOperand left frames t.plain = continueOperand left frames t := by
  have hbinding : Parser.bindingOf t.plain = Parser.bindingOf t := by
    unfold Parser.bindingOf Terminal.plain
    cases t.role <;> rfl
  simp only [continueOperand, hbinding, continueBracket_plain]
  split
  · rfl
  · rename_i hbinds
    have hrole := Parser.role_of_bindingOf_ne_zero hbinds
    simp [Terminal.plain, hrole]

theorem step_plain (ht : t.IsSimple) (stage : Stage) : step t.plain stage = step t stage := by
  cases stage with
  | operand frames => exact startOperand_plain ht frames
  | argument function arguments frames => exact startArgument_plain ht function arguments frames
  | operator left frames => exact continueOperand_plain left frames t

/-- The spelling of brackets and separators does not matter. -/
theorem run_plain {terminals : List Terminal} (hsimple : ∀ t ∈ terminals, t.IsSimple)
    (stage : Stage) : run stage (terminals.map Terminal.plain) = run stage terminals := by
  induction terminals generalizing stage with
  | nil => rfl
  | cons t terminals ih =>
    obtain ⟨ht, hterminals⟩ := List.forall_mem_cons.mp hsimple
    rw [List.map_cons, run, run, step_plain ht]
    split
    · exact ih hterminals _
    · rfl

/-! ### The parser -/

/-- No two proper phrases have one yield. -/
theorem eq_of_yield_eq {d' : Phrase} (h : d.Proper) (h' : d'.Proper) (hyield : d.yield = d'.yield) :
    d = d' := by
  have hrun := run_yield h
  rw [hyield, run_yield h'] at hrun
  exact (Option.some.inj hrun).symm

/-- What the parser accepts is the yield of a proper phrase, whose tree it returns. -/
theorem exists_proper_of_run {stop : Nat} {terminals : List Terminal} {root : Expr}
    (hsimple : ∀ t ∈ terminals, t.IsSimple)
    (h : Parser.run none stop (.operand []) terminals = .ok root) :
    ∃ d : Phrase, d.Proper ∧ d.yield = terminals.map Terminal.plain ∧ root.unplaced = d.tree := by
  have htree := run_tree stop hsimple
  rw [h] at htree
  obtain ⟨d, hrun, hd⟩ := Option.map_eq_some_iff.mp htree.symm
  obtain ⟨hproper, hyield⟩ := proper_of_run hsimple hrun
  exact ⟨d, hproper, hyield, hd.symm⟩

/-- The parser accepts the yield of every proper phrase. -/
theorem run_of_yield (h : d.Proper) {terminals : List Terminal}
    (hsimple : ∀ t ∈ terminals, t.IsSimple) (hyield : terminals.map Terminal.plain = d.yield)
    (stop : Nat) :
    ∃ root, Parser.run none stop (.operand []) terminals = .ok root ∧ root.unplaced = d.tree := by
  have htree := run_tree stop hsimple
  rw [← run_plain hsimple, hyield, run_yield h] at htree
  exact exists_ok_of_map htree

end SheetFormula.Draft
