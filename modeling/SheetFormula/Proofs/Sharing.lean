import SheetFormula.Proofs.Evaluation
import SheetFormula.Proofs.Key
import SheetFormula.Proofs.Recency

/-!
Formulas that share a routine. Whatever a compiler has been asked before, each routine at hand was built
from a formula that has its key. Formulas with one key have one structure, so a formula that is accepted
with nothing at hand gets its own routine from any store. A formula that is refused with nothing at hand
stays refused just as long as no formula with its key is accepted.
-/

set_option autoImplicit false

namespace SheetFormula

/-- What can be asked of a compiler and its store. -/
inductive Action where
  | compile (formula : String)
  | forget (formula : String)
  | clear

namespace Compiler

variable {c : Compiler} {s : Store} {formula other : String} {built : Built} {routine : Routine}
  {fault : Fault} {capacity : Int}

/-- The store after an action. -/
def act (c : Compiler) (s : Store) : Action → Store
  | .compile formula => (c.compile s formula).2.1
  | .forget formula => (c.forget s formula).2
  | .clear => s.clear

/-- The store after a history of actions. -/
def after (c : Compiler) (s : Store) (history : List Action) : Store :=
  history.foldl c.act s

/-- Every routine of the store was built from a formula with its key. -/
def Faithful (c : Compiler) (s : Store) : Prop :=
  ∀ entry ∈ s.cache.entries, ∃ formula, c.key formula = entry.1 ∧
    c.fresh formula = .ok entry.2.routine

theorem Faithful.act (h : c.Faithful s) (action : Action) : c.Faithful (c.act s action) := by
  rintro ⟨key, built⟩ hentry
  cases action with
  | compile formula =>
    rcases mem_of_mem_compile hentry with hmem | ⟨rfl, hfresh⟩
    · exact h _ hmem
    · exact ⟨formula, rfl, hfresh⟩
  | forget formula => exact h _ (mem_of_mem_forget hentry)
  | clear => cases hentry

theorem Faithful.after (h : c.Faithful s) (history : List Action) :
    c.Faithful (c.after s history) := by
  induction history generalizing s with
  | nil => exact h
  | cons action history ih => exact ih (h.act action)

theorem faithful_ofCapacity (c : Compiler) (capacity : Int) : c.Faithful (.ofCapacity capacity) :=
  List.forall_mem_nil _

theorem Faithful.find? (h : c.Faithful s) (hfind : s.cache.find? (c.key formula) = some built) :
    ∃ other, c.key other = c.key formula ∧ c.fresh other = .ok built.routine :=
  h _ (mem_of_find? hfind)

/-! ### Formulas that are accepted -/

/-- Accepted formulas with one key have one routine. -/
theorem routine_eq_of_key_eq (hc : c.locale = .canonical) {routine' : Routine}
    (h : c.fresh formula = .ok routine) (h' : c.fresh other = .ok routine')
    (hkey : c.key other = c.key formula) : routine' = routine := by
  obtain ⟨root, hparse, hroutine⟩ := root_of_fresh hc h
  obtain ⟨root', hparse', hroutine'⟩ := root_of_fresh hc h'
  rw [hkey] at hroutine'
  refine Routine.ofExpr_unique (Expr.structure_eq_of_key_eq hparse' hparse ?_) hroutine' hroutine
  rw [← hc]
  exact hkey

/-- A formula that is accepted with nothing at hand gets its own routine from any store. -/
theorem Faithful.outcome_of_fresh (hc : c.locale = .canonical) (hs : c.Faithful s)
    (h : c.fresh formula = .ok routine) :
    ∃ built, (c.compile s formula).1.outcome = .ok built ∧ built.routine = routine := by
  cases hfind : s.cache.find? (c.key formula) with
  | none => exact ⟨⟨s.built, routine⟩, by rw [outcome_of_missing hfind, h]; rfl, rfl⟩
  | some built =>
    obtain ⟨other, hkey, hother⟩ := hs.find? hfind
    exact ⟨built, outcome_of_found (readable_of_fresh h) hfind,
      routine_eq_of_key_eq hc h hother hkey⟩

/-- After any history, a formula that is accepted with nothing at hand is accepted, with the routine
that it has with nothing at hand. Two accepted formulas with one key have one routine. -/
theorem outcome_after_history (c : Compiler) (hc : c.locale = .canonical) (capacity : Int)
    (history : List Action) (formula : String) (own : Built)
    (h : (c.compile (.ofCapacity capacity) formula).1.outcome = .ok own) :
    (∃ built, (c.compile (c.after (.ofCapacity capacity) history) formula).1.outcome = .ok built ∧
        built.routine = own.routine ∧ own.routine.key = c.key formula) ∧
      ∀ other built, (c.compile (.ofCapacity capacity) other).1.outcome = .ok built →
        c.key other = c.key formula → built.routine = own.routine := by
  have hfresh := fresh_of_outcome h
  have hfaithful := (faithful_ofCapacity c capacity).after history
  obtain ⟨built, houtcome, hroutine⟩ := hfaithful.outcome_of_fresh hc hfresh
  obtain ⟨root, -, hown⟩ := root_of_fresh hc hfresh
  exact ⟨⟨built, houtcome, hroutine, Routine.key_of_ofExpr hown⟩,
    fun other built hother hkey => routine_eq_of_key_eq hc hfresh (fresh_of_outcome hother) hkey⟩

/-- Of a bounded store that has seen formulas of the same structure and a refused one. -/
theorem outcome_after_sums :
    (∃ built, (Compiler.compile {} (Compiler.after {} (.ofCapacity 1) [.compile "=SUM(1, A1)",
        .compile "=1+", .clear, .forget "=x", .compile "=SUM(2,$B$2)"]) "=SUM(3,C3)").1.outcome =
          .ok built ∧
        built.routine = ⟨"=SUM(|N|,|C|)",
          [.range 1 0 false, .call 2 "SUM" [.number 0, .slot 1]], .slot 2, 2⟩ ∧
        "=SUM(|N|,|C|)" = Compiler.key {} "=SUM(3,C3)") ∧
      ∀ other built, (Compiler.compile {} (.ofCapacity 1) other).1.outcome = .ok built →
        Compiler.key {} other = Compiler.key {} "=SUM(3,C3)" →
        built.routine = ⟨"=SUM(|N|,|C|)",
          [.range 1 0 false, .call 2 "SUM" [.number 0, .slot 1]], .slot 2, 2⟩ :=
  outcome_after_history {} rfl 1 _ "=SUM(3,C3)" ⟨0, _⟩ (by decide +kernel)

/-! ### Formulas that are refused -/

/-- A formula that is accepted leaves its key in the store. -/
theorem find?_compile (capacity : Int) (h : c.fresh formula = .ok routine) :
    ∃ built, (c.compile (.ofCapacity capacity) formula).2.1.cache.find? (c.key formula) =
      some built := by
  have hread := readable_of_fresh h
  rw [fresh_of_readable hread] at h
  rw [store_compile, outcome, hread]
  have hfind : (Store.ofCapacity capacity).cache.find? (c.key formula) = none := rfl
  simp only [key] at hfind h ⊢
  simp only [Compiler.routine, Cache.get?, hfind, h, Cache.add]
  exact ⟨_, Cache.find?_insert ..⟩

/-- A formula that is refused with nothing at hand is refused where no formula with its key has been
accepted. -/
theorem Faithful.outcome_of_refused (hs : c.Faithful s) (h : c.fresh formula = .error fault)
    (hother : ∀ other routine, c.key other = c.key formula → c.fresh other ≠ .ok routine) :
    (c.compile s formula).1.outcome = .error fault := by
  cases hfind : s.cache.find? (c.key formula) with
  | none => rw [outcome_of_missing hfind, h]; rfl
  | some built =>
    obtain ⟨other, hkey, hfresh⟩ := hs.find? hfind
    exact absurd hfresh (hother other _ hkey)

/-- After an accepted formula with the same key, a formula with readable numbers is accepted. -/
theorem outcome_after_accepted (hread : (c.literals formula).unreadable = none)
    (hkey : c.key other = c.key formula) (h : c.fresh other = .ok routine) :
    ∃ built, (c.compile (c.after (.ofCapacity capacity) [.compile other]) formula).1.outcome =
      .ok built := by
  obtain ⟨built, hfind⟩ := find?_compile capacity h
  rw [hkey] at hfind
  exact ⟨built, outcome_of_found hread hfind⟩

/-- A formula that is refused with nothing at hand is refused with the same fault after every history
exactly if it has an unreadable number or no formula with its key is accepted. A formula that is accepted
with nothing at hand never lacks a literal when it is run, whatever the history: it fails only where the
surroundings refuse. -/
theorem stays_refused_iff (c : Compiler) (hc : c.locale = .canonical) (capacity : Int)
    (formula : String) (fault : Fault)
    (h : (c.compile (.ofCapacity capacity) formula).1.outcome = .error fault) :
    ((∀ history, (c.compile (c.after (.ofCapacity capacity) history) formula).1.outcome =
        .error fault) ↔
      (c.literals formula).unreadable.isSome ∨ ∀ other, c.key other = c.key formula →
        (c.compile (.ofCapacity capacity) other).1.isBad = true) ∧
      ∀ history other, (c.compile (.ofCapacity capacity) other).1.isBad = false →
        ∀ {m : Type → Type} [Monad m] [LawfulMonad m] {ε α : Type} (env : Surroundings m ε α)
          (debugging : Bool) (note : Trace → m Unit),
          ∃ evaluation : m (Except (Refusal ε) (Value α)),
          (c.compile (c.after (.ofCapacity capacity) history) other).1.run env debugging note =
            Except.mapError Refusal.toFailure <$> evaluation := by
  have hfaithful := (faithful_ofCapacity c capacity).after
  have hrefused := fresh_of_refused h
  refine ⟨⟨fun hstays => ?_, ?_⟩, fun history other hgood m _ _ ε α env debugging note => ?_⟩
  · cases hread : (c.literals formula).unreadable with
    | some text => exact .inl rfl
    | none =>
      refine .inr fun other hkey => Bool.of_not_eq_false fun hgood => ?_
      obtain ⟨routine, hfresh⟩ := fresh_of_not_isBad hgood
      obtain ⟨built, hbuilt⟩ := outcome_after_accepted hread hkey hfresh
      rw [hstays [.compile other]] at hbuilt
      cases hbuilt
  · rintro (hread | hother) history
    · obtain ⟨text, hread⟩ := Option.isSome_iff_exists.mp hread
      rw [outcome_of_unreadable hread, hrefused]
      rfl
    · refine (hfaithful history).outcome_of_refused hrefused fun other routine hkey hfresh => ?_
      have hbad := hother other hkey
      rw [isBad_ofCapacity hfresh] at hbad
      cases hbad
  · obtain ⟨routine, hfresh⟩ := fresh_of_not_isBad hgood
    obtain ⟨built, houtcome, rfl⟩ := (hfaithful history).outcome_of_fresh hc hfresh
    obtain ⟨root, -, hrun⟩ := run_of_fresh hc hfresh rfl houtcome
    exact ⟨_, hrun env debugging note⟩

/-- A sum without its second operand. -/
theorem open_sum_stays_refused_iff :
    ((∀ history, (Compiler.compile {} (Compiler.after {} (.ofCapacity 0) history)
        "=1+").1.outcome = .error (.bad .unexpectedEnd 3 "")) ↔
      (Compiler.literals {} "=1+").unreadable.isSome ∨
        ∀ other, Compiler.key {} other = Compiler.key {} "=1+" →
          (Compiler.compile {} (.ofCapacity 0) other).1.isBad = true) ∧
      ∀ history other, (Compiler.compile {} (.ofCapacity 0) other).1.isBad = false →
        ∀ {m : Type → Type} [Monad m] [LawfulMonad m] {ε α : Type} (env : Surroundings m ε α)
          (debugging : Bool) (note : Trace → m Unit),
          ∃ evaluation : m (Except (Refusal ε) (Value α)),
          (Compiler.compile {} (Compiler.after {} (.ofCapacity 0) history) other).1.run env debugging
              note =
            Except.mapError Refusal.toFailure <$> evaluation :=
  stays_refused_iff {} rfl 0 "=1+" _ (by decide +kernel)

/-- A text that spells the mark of a number has the key of a number. It is refused with nothing at hand;
after a number it is accepted, and its run finds no literal. -/
theorem bars_accepted_after_number :
    (Compiler.compile {} (.ofCapacity 0) "=|N|").1.outcome =
        .error (.bad (.unexpectedToken "|") 1 "|") ∧
      (Compiler.compile {} (Compiler.after {} (.ofCapacity 0) [.compile "=1"]) "=|N|").1.isBad =
        false ∧
      ∀ {m : Type → Type} [Monad m] {ε α : Type} (env : Surroundings m ε α)
        (debugging : Bool) (note : Trace → m Unit),
        (Compiler.compile {} (Compiler.after {} (.ofCapacity 0) [.compile "=1"]) "=|N|").1.run env
          debugging note = pure (.error .missingLiteral) := by
  refine ⟨by decide +kernel, by decide +kernel, fun env debugging note => ?_⟩
  have houtcome : (Compiler.compile {} (Compiler.after {} (.ofCapacity 0) [.compile "=1"])
      "=|N|").1.outcome = .ok ⟨0, ⟨"=|N|", [], .number 0, 0⟩⟩ := by
    decide +kernel
  have hnumbers : (Compiler.compile {} (Compiler.after {} (.ofCapacity 0) [.compile "=1"])
      "=|N|").1.inputs.numbers = [] := by
    decide +kernel
  rw [Compiled.run, houtcome]
  simp only [Routine.run, Run.code, Run.operand?, hnumbers]
  rfl

end Compiler

end SheetFormula
