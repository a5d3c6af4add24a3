import SheetFormula.Proofs.Nesting

/-!
What a limit on nesting changes. The parser looks at its limit only where an operand starts, and each
operand starts at a depth that does not depend on the limit. So a formula is refused as nested too deeply
at the first operand that starts beyond the limit; where there is none, it is read as without a limit.
-/

set_option autoImplicit false

namespace SheetFormula

namespace Parser

/-- Where an operand starts: how deep it is nested, and the token it starts with. -/
structure Start where
  depth : Nat
  index : Nat
  text : String
deriving DecidableEq, Repr

/-- The depth of the operand that the parser waits for, if it does. -/
def Stage.awaited? : Stage → Option Nat
  | .operand frames => some (frames.length + 1)
  | .argument _ _ _ frames => some (frames.length + 2)
  | .operator _ _ => none

/-- The depth of the operand that starts with a terminal, if one does. An argument can be left out. -/
def Stage.depth? (t : Terminal) (stage : Stage) : Option Nat :=
  match stage, t.role with
  | .argument .., .argSeparator => none
  | .argument .., .rightParen => none
  | stage, _ => stage.awaited?

/-- The operands in their order, up to the one at which the formula is refused, if it is. -/
def starts (stop : Nat) : Stage → List Terminal → List Start
  | stage, [] => (stage.awaited?.map fun depth => ⟨depth, stop, ""⟩).toList
  | stage, t :: rest =>
    ((stage.depth? t).map fun depth => ⟨depth, t.index, t.text⟩).toList ++
      match step none t stage with
      | .ok next => starts stop next rest
      | .error _ => []

variable (limit : Option Nat) (stage : Stage) (t : Terminal)

/-- A step takes no notice of the limit, unless an operand starts beyond it. -/
theorem step_eq_ite :
    step limit t stage =
      if (stage.depth? t).all (within limit) then step none t stage else .error .tooDeep := by
  cases stage with
  | operand frames => exact startOperand_eq limit frames t
  | argument name index arguments frames =>
    by_cases ht : t.IsSeparator
    · rcases ht with hrole | hrole <;> simp [step, startArgument, Stage.depth?, hrole]
    · have hdepth : (Stage.argument name index arguments frames).depth? t =
          some (frames.length + 2) := by
        unfold Stage.depth?
        split
        · rename_i hrole
          exact absurd (.inl hrole) ht
        · rename_i hrole
          exact absurd (.inr hrole) ht
        · rfl
      rw [hdepth, step, startArgument_eq_startOperand ht, step, startArgument_eq_startOperand ht]
      exact startOperand_eq limit _ t
  | operator left frames => simp [step, Stage.depth?, Stage.awaited?]

theorem finish_eq_ite :
    finish limit stage =
      if stage.awaited?.all (within limit) then finish none stage else .error .tooDeep := by
  cases stage with
  | operand frames =>
    rw [finish, tooDeep_eq_not_within, Stage.awaited?, Option.all_some]
    cases within limit (frames.length + 1) <;> rfl
  | argument name index arguments frames =>
    rw [finish, tooDeep_eq_not_within, Stage.awaited?, Option.all_some]
    change Except.error (if (!within limit (frames.length + 2)) = true then _ else _) = _
    cases within limit (frames.length + 2) <;> rfl
  | operator left frames => rfl

/-- The parser answers as without a limit, unless an operand starts beyond it: then it refuses the formula
at the first such operand. -/
theorem run_eq_elim (stop : Nat) (terminals : List Terminal) :
    run limit stop stage terminals =
      ((starts stop stage terminals).find? fun start => !within limit start.depth).elim
        (run none stop stage terminals) fun start => .error (.bad .tooDeep start.index start.text) := by
  induction terminals generalizing stage with
  | nil =>
    rw [run, finish_eq_ite, starts]
    cases stage.awaited? with
    | none => simp [run]
    | some depth => cases hwithin : within limit depth <;> simp [hwithin, run]
  | cons t terminals ih =>
    by_cases hall : (stage.depth? t).all (within limit) = true
    · -- an operand that starts here is not beyond the limit, and the first that is comes later
      have hnone : (((stage.depth? t).map fun depth => (⟨depth, t.index, t.text⟩ : Start)).toList.find?
          fun start => !within limit start.depth) = none := by
        cases hdepth : stage.depth? t <;> simp_all
      rw [run, step_eq_ite, if_pos hall, run, starts, List.find?_append, hnone, Option.none_or]
      cases step none t stage with
      | error reason => rfl
      | ok next => exact ih next
    · rw [run, step_eq_ite, if_neg hall, starts]
      cases hdepth : stage.depth? t with
      | none => simp [hdepth] at hall
      | some depth => simp_all

theorem startOperand_none_ne_tooDeep (frames : List Frame) :
    startOperand none frames t ≠ .error .tooDeep := by
  rw [startOperand, if_neg (by simp [tooDeep])]
  split
  case h_7 => split <;> simp
  all_goals simp

theorem continueBracket_ne_tooDeep (operand : Expr) (frames : List Frame) :
    continueBracket operand frames t ≠ .error .tooDeep := by
  unfold continueBracket
  split
  case h_4 => simp
  all_goals split <;> simp

theorem step_none_ne_tooDeep : step none t stage ≠ .error .tooDeep := by
  cases stage with
  | operand frames => exact startOperand_none_ne_tooDeep t frames
  | argument name index arguments frames =>
    rw [step, startArgument]
    split
    · simp
    · simp
    · exact startOperand_none_ne_tooDeep t _
  | operator left frames =>
    rw [step, continueOperand]
    dsimp only
    split_ifs
    · exact continueBracket_ne_tooDeep t _ _
    · simp
    · simp

theorem finish_none_ne_tooDeep : finish none stage ≠ .error .tooDeep := by
  cases stage with
  | operand frames => simp [finish, tooDeep]
  | argument name index arguments frames => simp [finish, tooDeep]
  | operator left frames =>
    rw [finish]
    split <;> simp

/-- Without a limit nothing is nested too deeply. -/
theorem run_none_ne_tooDeep (stop : Nat) (terminals : List Terminal) (position : Int) (token : String) :
    run none stop stage terminals ≠ .error (.bad .tooDeep position token) := by
  induction terminals generalizing stage with
  | nil =>
    have hfinish := finish_none_ne_tooDeep stage
    rw [run]
    cases hresult : finish none stage with
    | ok root => simp
    | error reason =>
      rw [hresult] at hfinish
      simp_all [Fault.bad]
  | cons t terminals ih =>
    have hstep := step_none_ne_tooDeep stage t
    rw [run]
    cases hresult : step none t stage with
    | ok next => exact ih next
    | error reason =>
      rw [hresult] at hstep
      simp_all [Fault.bad]

end Parser

/-- The answer is that a formula is nested too deeply. -/
def Parser.IsTooDeep (answer : Except Fault Expr) : Prop :=
  ∃ position token, answer = .error (.bad .tooDeep position token)

namespace Expr

/-- The operands of a formula in their order. -/
def starts (locale : Locale) (tokens : List Token) : List Parser.Start :=
  match Parser.dropEquals (Terminal.ofTokens locale tokens) with
  | [] => []
  | terminals => Parser.starts tokens.length (.operand []) terminals

theorem ofTokens_eq_elim (locale : Locale) (limit : Option Nat) (tokens : List Token) :
    ofTokens ⟨locale, limit⟩ tokens =
      ((starts locale tokens).find? fun start => !Parser.within limit start.depth).elim
        (ofTokens ⟨locale, none⟩ tokens) fun start =>
          .error (.bad .tooDeep start.index start.text) := by
  unfold ofTokens starts
  cases Parser.dropEquals (Terminal.ofTokens locale tokens) with
  | nil => rfl
  | cons t terminals => exact Parser.run_eq_elim limit (.operand []) tokens.length (t :: terminals)

theorem not_isTooDeep_ofTokens (locale : Locale) (tokens : List Token) :
    ¬ Parser.IsTooDeep (ofTokens ⟨locale, none⟩ tokens) := by
  rintro ⟨position, token, h⟩
  unfold ofTokens at h
  cases hterminals : Parser.dropEquals (Terminal.ofTokens locale tokens) with
  | nil => simp [hterminals, Fault.bad] at h
  | cons t terminals =>
    rw [hterminals] at h
    exact Parser.run_none_ne_tooDeep _ _ _ _ _ h

variable {locale : Locale} {tokens : List Token} {most : Nat}

/-- Where no operand starts beyond a limit, it changes nothing. -/
theorem ofTokens_of_starts_le (h : ∀ start ∈ starts locale tokens, start.depth ≤ most) :
    ofTokens ⟨locale, some most⟩ tokens = ofTokens ⟨locale, none⟩ tokens := by
  have hnone : ((starts locale tokens).find? fun start => !Parser.within (some most) start.depth) =
      none :=
    List.find?_eq_none.mpr fun start hstart => by simpa [Parser.within] using h start hstart
  rw [ofTokens_eq_elim, hnone, Option.elim_none]

theorem isTooDeep_of_lt_depth {start : Parser.Start} (hstart : start ∈ starts locale tokens)
    (h : most < start.depth) : Parser.IsTooDeep (ofTokens ⟨locale, some most⟩ tokens) := by
  have hsome : ((starts locale tokens).find?
      fun start => !Parser.within (some most) start.depth).isSome = true :=
    List.find?_isSome.mpr ⟨start, hstart, by simpa [Parser.within] using h⟩
  obtain ⟨first, hfirst⟩ := Option.isSome_iff_exists.mp hsome
  rw [ofTokens_eq_elim, hfirst, Option.elim_some]
  exact ⟨_, _, rfl⟩

/-- A limit on nesting only cuts off. Under a limit a formula is read, or refused, as without one, or else
it is refused as nested too deeply; if it is not, no higher limit makes a difference. It is refused so
exactly where an operand starts beyond the limit. -/
theorem ofTokens_limited (locale : Locale) (tokens : List Token) (most : Nat) :
    let read (limit : Option Nat) := ofTokens ⟨locale, limit⟩ tokens
    (read (some most) = read none ∨ Parser.IsTooDeep (read (some most))) ∧
    (¬ Parser.IsTooDeep (read (some most)) →
      ∀ more ≥ most, read (some more) = read (some most)) ∧
    (Parser.IsTooDeep (read (some most)) ↔ ∃ start ∈ starts locale tokens, most < start.depth) := by
  intro read
  by_cases hdeep : ∃ start ∈ starts locale tokens, most < start.depth
  · obtain ⟨start, hstart, hlt⟩ := hdeep
    have htooDeep : Parser.IsTooDeep (read (some most)) := isTooDeep_of_lt_depth hstart hlt
    exact ⟨.inr htooDeep, absurd htooDeep, fun _ => ⟨start, hstart, hlt⟩, fun _ => htooDeep⟩
  · have hle (start : Parser.Start) (hstart : start ∈ starts locale tokens) : start.depth ≤ most :=
      Nat.le_of_not_lt fun hlt => hdeep ⟨start, hstart, hlt⟩
    have hfree : read (some most) = read none := ofTokens_of_starts_le hle
    refine ⟨.inl hfree, fun _ more hmore => ?_, fun htooDeep => ?_, fun h => absurd h hdeep⟩
    · exact (ofTokens_of_starts_le fun start hstart => (hle start hstart).trans hmore).trans hfree.symm
    · rw [hfree] at htooDeep
      exact absurd htooDeep (not_isTooDeep_ofTokens locale tokens)

end Expr

end SheetFormula
