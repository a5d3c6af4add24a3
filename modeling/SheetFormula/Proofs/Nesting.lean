import SheetFormula.Proofs.Grammar

/-!
How deeply a formula is nested. The nesting of a phrase is the greatest number of constructs that are
open where one of its operands starts. A stage of the parser knows how deep it has been: the nesting of
what it has finished, at the height of the stack where that stands. A limit lets pass exactly the
formulas whose phrase is nested no more deeply.
-/

set_option autoImplicit false

namespace SheetFormula

namespace Phrase

mutual

/-- How deeply the operands of a phrase are nested, the phrase itself having the depth one. -/
def nesting : Phrase → Nat
  | .leaf _ _ => 1
  | .omitted => 0
  | .group d => nesting d + 1
  | .marked d => nesting d + 1
  | .sign _ d => nesting d + 1
  | .suffix _ d => nesting d
  | .operation _ a b => max (nesting a) (nesting b + 1)
  | .call _ as => nestings as + 1
  | .array rs => nestingRows rs + 1

def nestings : List Phrase → Nat
  | [] => 0
  | d :: ds => max (nesting d) (nestings ds)

def nestingRows : List (List Phrase) → Nat
  | [] => 0
  | r :: rs => max (nestings r) (nestingRows rs)

end

theorem nestings_concat (ds : List Phrase) (d : Phrase) :
    nestings (ds ++ [d]) = max (nestings ds) (nesting d) := by
  induction ds with
  | nil => simp [nestings]
  | cons d' ds ih => rw [List.cons_append, nestings, ih, nestings, Nat.max_assoc]

theorem nestingRows_concat (rs : List (List Phrase)) (r : List Phrase) :
    nestingRows (rs ++ [r]) = max (nestingRows rs) (nestings r) := by
  induction rs with
  | nil => simp [nestingRows]
  | cons r' rs ih => rw [List.cons_append, nestingRows, ih, nestingRows, Nat.max_assoc]

end Phrase

namespace Terminal

/-- The terminal ends an argument, be it one that is left out. -/
def IsSeparator (t : Terminal) : Prop :=
  t.role = .argSeparator ∨ t.role = .rightParen

theorem isSeparator_unplaced (t : Terminal) : t.unplaced.IsSeparator ↔ t.IsSeparator := by
  cases hrole : t.role <;> simp [IsSeparator, unplaced, recast, hrole]

end Terminal

namespace Parser

/-- The depth is within the limit, if there is one. -/
def within (limit : Option Nat) (depth : Nat) : Bool :=
  limit.all fun most => decide (depth ≤ most)

variable {limit : Option Nat} {depth depth' : Nat}

theorem within_some (most : Nat) : within (some most) depth = true ↔ depth ≤ most := by
  simp [within]

theorem within_max : within limit (max depth depth') = (within limit depth && within limit depth') := by
  cases limit with
  | none => rfl
  | some most => simp only [within, Option.all_some, Nat.max_le, Bool.decide_and]

theorem within_of_le (h : within limit depth' = true) (hle : depth ≤ depth') :
    within limit depth = true := by
  rw [← Nat.max_eq_right hle, within_max, Bool.and_eq_true] at h
  exact h.1

theorem tooDeep_eq_not_within (limit : Option Nat) (frames : List Frame) :
    tooDeep limit frames = !within limit (frames.length + 1) := by
  cases limit with
  | none => rfl
  | some most =>
    simp only [tooDeep, within, Option.any_some, Option.all_some, ← decide_not, Nat.not_le]

theorem startOperand_eq (limit : Option Nat) (frames : List Frame) (t : Terminal) :
    startOperand limit frames t =
      if within limit (frames.length + 1) then startOperand none frames t else .error .tooDeep := by
  unfold startOperand
  rw [tooDeep_eq_not_within]
  cases within limit (frames.length + 1) <;> rfl

theorem startArgument_eq_startOperand {t : Terminal} (h : ¬ t.IsSeparator) (limit : Option Nat)
    (name : String) (index : Nat) (arguments : List Expr) (frames : List Frame) :
    startArgument limit name index arguments frames t =
      startOperand limit (.call name index arguments :: frames) t := by
  unfold startArgument
  split
  · rename_i hrole
    exact absurd (.inl hrole) h
  · rename_i hrole
    exact absurd (.inr hrole) h
  · rfl

theorem toOption_run_cons (limit : Option Nat) (stop : Nat) (stage : Stage) (t : Terminal)
    (rest : List Terminal) :
    (run limit stop stage (t :: rest)).toOption =
      (step limit t stage).toOption.bind fun next => (run limit stop next rest).toOption := by
  rw [run]
  cases step limit t stage <;> rfl

end Parser

namespace Draft

variable {limit : Option Nat} {t : Terminal} {stage next : Stage} {frames : List Frame} {d : Phrase}

/-! ### How deep a stage has been -/

/-- The nesting of what a construct has of its operands. -/
def Frame.nesting : Frame → Nat
  | .operation _ left => left.nesting
  | .call _ arguments => Phrase.nestings arguments + 1
  | .array rows row => max (Phrase.nestingRows rows) (Phrase.nestings row) + 1
  | _ => 1

def reach : List Frame → Nat
  | [] => 0
  | frame :: frames => max (reach frames) (frames.length + frame.nesting)

def Stage.reach : Stage → Nat
  | .operand frames => Draft.reach frames
  | .argument function arguments frames => Draft.reach (.call function arguments :: frames)
  | .operator left frames => max (Draft.reach frames) (frames.length + left.nesting)

/-- What closes goes no deeper. -/
theorem reach_close (binding : Nat) (d : Phrase) (frames : List Frame) :
    (Stage.operator (close binding d frames).1 (close binding d frames).2).reach =
      (Stage.operator d frames).reach := by
  induction frames generalizing d with
  | nil => rfl
  | cons frame frames ih =>
    by_cases h : frame.priority < binding
    · rw [close_stop h]
    · have hle := Nat.not_lt.mp h
      cases frame with
      | marker =>
        rw [close_marker hle, ih]
        simp only [Stage.reach, reach, Frame.nesting, Phrase.nesting, List.length_cons]
        omega
      | sign op =>
        rw [close_sign op hle, ih]
        simp only [Stage.reach, reach, Frame.nesting, Phrase.nesting, List.length_cons]
        omega
      | operation op left =>
        rw [close_operation left hle, ih]
        simp only [Stage.reach, reach, Frame.nesting, Phrase.nesting, List.length_cons]
        omega
      | _ => simp only [close, ite_self]

/-- An operand starts one deeper than the constructs around it. -/
theorem reach_startOperand (h : startOperand frames t = some next) :
    next.reach = max (reach frames) (frames.length + 1) := by
  unfold startOperand at h
  split at h
  · cases h
    simp [Stage.reach, Phrase.nesting]
  · cases h
    simp [Stage.reach, reach, Frame.nesting, Phrase.nestings]
  · cases h
    rfl
  · cases h
    rfl
  · cases h
    simp [Stage.reach, reach, Frame.nesting, Phrase.nestings, Phrase.nestingRows]
  · split at h
    · cases h
      rfl
    · cases h
  · cases h

theorem reach_continueBracket (h : continueBracket d frames t = some next) :
    next.reach = (Stage.operator d frames).reach := by
  unfold continueBracket at h
  split at h
  · split at h
    · cases h
      simp only [Stage.reach, reach, Frame.nesting, Phrase.nesting, List.length_cons]
      omega
    · cases h
  · split at h
    · cases h
      simp only [Stage.reach, reach, Frame.nesting, Phrase.nestings_concat, List.length_cons]
      omega
    · cases h
      simp only [Stage.reach, reach, Frame.nesting, Phrase.nesting, Phrase.nestings_concat,
        List.length_cons]
      omega
    · cases h
  · split at h
    · cases h
      simp only [Stage.reach, reach, Frame.nesting, Phrase.nestings_concat, List.length_cons]
      omega
    · cases h
      simp only [Stage.reach, reach, Frame.nesting, Phrase.nestings, Phrase.nestings_concat,
        Phrase.nestingRows_concat, List.length_cons]
      omega
    · cases h
      simp only [Stage.reach, reach, Frame.nesting, Phrase.nesting, Phrase.nestings_concat,
        Phrase.nestingRows_concat, List.length_cons]
      omega
    · cases h
  · cases h

/-- What follows an operand goes no deeper. -/
theorem reach_continueOperand {left : Phrase} (h : continueOperand left frames t = some next) :
    next.reach = (Stage.operator left frames).reach := by
  simp only [continueOperand] at h
  rw [← reach_close (Parser.bindingOf t) left frames]
  split at h
  · exact reach_continueBracket h
  · split at h
    · cases h
      rfl
    · cases h
      rfl

/-! ### Limits -/

theorem filter_eq_ite {α : Type} {p : α → Bool} {b : Bool} {o : Option α}
    (h : ∀ a, o = some a → p a = b) : o.filter p = if b then o else none := by
  cases o with
  | none => cases b <;> rfl
  | some a => cases b <;> simp [Option.filter, h a rfl]

theorem startOperand_limited (ht : t.IsSimple) (hreach : Parser.within limit (reach frames) = true) :
    (Parser.startOperand limit (frames.map Frame.tree) t.unplaced).toOption =
      ((startOperand frames t).filter fun next => Parser.within limit next.reach).map Stage.tree := by
  have hfilter := filter_eq_ite (o := startOperand frames t)
    (p := fun next : Stage => Parser.within limit next.reach) (b := Parser.within limit (frames.length + 1))
    fun next h => by rw [reach_startOperand h, Parser.within_max, hreach, Bool.true_and]
  rw [hfilter, Parser.startOperand_eq, List.length_map]
  split
  · exact startOperand_tree ht frames
  · rfl

theorem startArgument_eq_startOperand (h : ¬ t.IsSeparator) (function : String)
    (arguments : List Phrase) (frames : List Frame) :
    startArgument function arguments frames t = startOperand (.call function arguments :: frames) t := by
  unfold startArgument
  split
  · rename_i hrole
    exact absurd (.inl hrole) h
  · rename_i hrole
    exact absurd (.inr hrole) h
  · rfl

/-- An argument that is left out, or the end of a call, goes no deeper. -/
theorem reach_separated {function : String} {arguments : List Phrase} (hrole : t.IsSeparator)
    (h : startArgument function arguments frames t = some next) :
    next.reach = reach (.call function arguments :: frames) := by
  unfold startArgument at h
  rcases hrole with hrole | hrole
  · simp only [hrole, Option.some.injEq] at h
    subst h
    simp [Stage.reach, reach, Frame.nesting, Phrase.nestings_concat, Phrase.nesting]
  · simp only [hrole, Option.some.injEq] at h
    subst h
    cases arguments with
    | nil => rfl
    | cons a as =>
      change max (reach frames) (frames.length + (Phrase.nestings ((a :: as) ++ [.omitted]) + 1)) = _
      rw [Phrase.nestings_concat, Phrase.nesting, Nat.max_zero]
      rfl

theorem startArgument_limited (ht : t.IsSimple) {function : String} {arguments : List Phrase}
    (hreach : Parser.within limit (reach (.call function arguments :: frames)) = true) :
    (Parser.startArgument limit function 0 (arguments.map Phrase.tree) (frames.map Frame.tree)
        t.unplaced).toOption =
      ((startArgument function arguments frames t).filter fun next =>
        Parser.within limit next.reach).map Stage.tree := by
  by_cases hrole : t.IsSeparator
  · have hfilter := filter_eq_ite (o := startArgument function arguments frames t)
      (p := fun next : Stage => Parser.within limit next.reach) (b := true) fun next h => by
        rw [reach_separated hrole h, hreach]
    rw [hfilter, if_pos rfl, ← startArgument_tree ht]
    rcases hrole with hrole | hrole <;>
      simp only [Parser.startArgument, Terminal.unplaced, Terminal.recast, hrole]
  · have hplain := mt (Terminal.isSeparator_unplaced t).mp hrole
    rw [Parser.startArgument_eq_startOperand hplain, startArgument_eq_startOperand hrole]
    exact startOperand_limited ht hreach

/-- Within the limit, a step of the parser is the step of the draft, unless that goes too deep. -/
theorem step_limited (ht : t.IsSimple) (hreach : Parser.within limit stage.reach = true) :
    (Parser.step limit t.unplaced stage.tree).toOption =
      ((step t stage).filter fun next => Parser.within limit next.reach).map Stage.tree := by
  cases stage with
  | operand frames => exact startOperand_limited ht hreach
  | argument function arguments frames => exact startArgument_limited ht hreach
  | operator left frames =>
    have hfilter := filter_eq_ite (o := continueOperand left frames t)
      (p := fun next : Stage => Parser.within limit next.reach) (b := true) fun next h => by
        rw [reach_continueOperand h, hreach]
    change (Parser.continueOperand _ _ _).toOption = ((continueOperand left frames t).filter _).map _
    rw [hfilter, if_pos rfl, ← continueOperand_tree]

theorem reach_le_of_step (h : step t stage = some next) : stage.reach ≤ next.reach := by
  cases stage with
  | operand frames =>
    rw [reach_startOperand h]
    exact Nat.le_max_left _ _
  | argument function arguments frames =>
    by_cases hrole : t.IsSeparator
    · rw [reach_separated hrole h]
      rfl
    · rw [step, startArgument_eq_startOperand hrole] at h
      rw [reach_startOperand h]
      exact Nat.le_max_left _ _
  | operator left frames => rw [reach_continueOperand h]

theorem nesting_of_finish (h : finish stage = some d) : d.nesting = stage.reach := by
  unfold finish at h
  split at h
  · rename_i left frames
    have hclose := reach_close 0 left frames
    split at h
    · rename_i heq
      rw [heq] at hclose
      cases h
      simpa [Stage.reach, reach] using hclose
    · cases h
  · cases h

/-- A phrase is nested as deeply as the stages that it is read through. -/
theorem reach_le_of_run {terminals : List Terminal} (h : run stage terminals = some d) :
    stage.reach ≤ d.nesting := by
  induction terminals generalizing stage with
  | nil => exact (nesting_of_finish h).symm.le
  | cons t terminals ih =>
    simp only [run] at h
    split at h
    · rename_i next hstep
      exact (reach_le_of_step hstep).trans (ih h)
    · cases h

theorem finish_limited (limit : Option Nat) (stage : Stage) :
    (Parser.finish limit stage.tree).toOption = (finish stage).map Phrase.tree := by
  rw [← finish_tree]
  cases stage <;> rfl

/-- Within the limit, the parser reads what is drafted, unless that is nested too deeply. -/
theorem run_limited (stop : Nat) {terminals : List Terminal}
    (hsimple : ∀ t ∈ terminals, t.IsSimple) (hreach : Parser.within limit stage.reach = true) :
    (Parser.run limit stop stage.tree (terminals.map Terminal.unplaced)).toOption =
      ((run stage terminals).filter fun d => Parser.within limit d.nesting).map Phrase.tree := by
  induction terminals generalizing stage with
  | nil =>
    have hfinish := finish_limited limit stage
    have hfilter := filter_eq_ite (o := finish stage)
      (p := fun d : Phrase => Parser.within limit d.nesting) (b := true) fun d h => by
        rw [nesting_of_finish h, hreach]
    rw [run, hfilter, if_pos rfl, ← hfinish]
    simp only [List.map_nil, Parser.run]
    cases Parser.finish limit stage.tree <;> rfl
  | cons t terminals ih =>
    obtain ⟨ht, hterminals⟩ := List.forall_mem_cons.mp hsimple
    rw [List.map_cons, Parser.toOption_run_cons, step_limited ht hreach, run]
    cases step t stage with
    | none => rfl
    | some next =>
      cases hwithin : Parser.within limit next.reach with
      | true =>
        have hfilter : (some next).filter (fun next => Parser.within limit next.reach) = some next := by
          simp [hwithin]
        rw [hfilter]
        exact ih hterminals hwithin
      | false =>
        -- too deep already, so the whole phrase is too
        have hfilter := filter_eq_ite (o := run next terminals)
          (p := fun d : Phrase => Parser.within limit d.nesting) (b := false) fun d h => by
            by_contra hdeep
            rw [Parser.within_of_le (by simpa using hdeep) (reach_le_of_run h)] at hwithin
            cases hwithin
        have hstop : (some next).filter (fun next => Parser.within limit next.reach) = none := by
          simp [hwithin]
        rw [hstop]
        exact (congrArg (Option.map Phrase.tree) hfilter).symm

end Draft

namespace Phrase

variable {limit : Option Nat} {locale : Locale} {tokens : List Token} {root : Expr} {d : Phrase}

/-- With a limit, the tokens of a formula are read as they are drafted, unless that is nested too
deeply. -/
theorem toOption_ofTokens (locale : Locale) (limit : Option Nat) (tokens : List Token) :
    (Expr.ofTokens ⟨locale, limit⟩ tokens).toOption.map Expr.unplaced =
      ((Draft.run (.operand []) (Terminal.ofIndexed locale
        (Terminal.afterEquals (Terminal.significant tokens)))).filter fun d =>
          Parser.within limit d.nesting).map tree := by
  have hstart : Parser.within limit (Draft.Stage.operand []).reach = true := by
    cases limit <;> simp [Parser.within, Draft.Stage.reach, Draft.reach]
  have hsimple : ∀ t ∈ Terminal.ofIndexed locale
      (Terminal.afterEquals (Terminal.significant tokens)), t.IsSimple :=
    Terminal.isSimple_ofIndexed _
  have hrun := Draft.run_limited tokens.length hsimple hstart
  rw [Parser.toOption_ofTokens, Terminal.ofTokens, Terminal.dropEquals_ofIndexed, ← hrun]
  exact (Parser.run_recast _ rfl limit _ _ (.operand []) _).symm

/-- With a limit, the tokens of a phrase are read exactly where the phrase is nested no more deeply. -/
theorem Derives.toOption_ofTokens (h : d.Derives locale tokens) (limit : Option Nat) :
    (Expr.ofTokens ⟨locale, limit⟩ tokens).toOption.map Expr.unplaced =
      if Parser.within limit d.nesting then some d.tree else none := by
  have hdraft : Draft.run (.operand []) (Terminal.ofIndexed locale
      (Terminal.afterEquals (Terminal.significant tokens))) = some d := by
    rw [← Draft.run_plain (Terminal.isSimple_ofIndexed _), h.map_plain_ofIndexed,
      Draft.run_yield h.grammatical.proper]
  rw [Phrase.toOption_ofTokens, hdraft]
  cases hwithin : Parser.within limit d.nesting <;> simp [hwithin]

theorem Derives.ofTokens_iff_within (h : d.Derives locale tokens) (limit : Option Nat) :
    (∃ root, Expr.ofTokens ⟨locale, limit⟩ tokens = .ok root) ↔
      Parser.within limit d.nesting = true := by
  have hread := h.toOption_ofTokens limit
  constructor
  · rintro ⟨root, hroot⟩
    by_contra hdeep
    rw [hroot, if_neg hdeep] at hread
    cases hread
  · intro hwithin
    rw [if_pos hwithin] at hread
    obtain ⟨root, hroot, -⟩ := exists_ok_of_map hread
    exact ⟨root, hroot⟩

/-- What is read within a limit is the tree of a phrase that is nested within it. -/
theorem exists_derives_within (h : Expr.ofTokens ⟨locale, limit⟩ tokens = .ok root) :
    ∃ d : Phrase, d.Derives locale tokens ∧ root.unplaced = d.tree ∧
      Parser.within limit d.nesting = true := by
  have hlimited := toOption_ofTokens locale limit tokens
  rw [h] at hlimited
  obtain ⟨draft, hdraft, -⟩ := Option.map_eq_some_iff.mp hlimited.symm
  have hdraft := (Option.filter_eq_some_iff.mp hdraft).1
  -- what is drafted is read without a limit, and so there is a phrase of the grammar
  have hfree := toOption_ofTokens locale none tokens
  rw [hdraft] at hfree
  obtain ⟨root', hread, -⟩ := exists_ok_of_map hfree
  obtain ⟨d, hd, -⟩ := exists_derives hread
  have htree := hd.toOption_ofTokens limit
  have hwithin := (hd.ofTokens_iff_within limit).mp ⟨root, h⟩
  rw [h, if_pos hwithin] at htree
  exact ⟨d, hd, Option.some.inj htree, hwithin⟩

end Phrase

end SheetFormula
