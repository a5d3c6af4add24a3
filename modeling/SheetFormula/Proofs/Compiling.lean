import SheetFormula.Compiler
import SheetFormula.Proofs.Scan

/-!
What compiling does with a store. Apart from an unreadable number, the outcome for a formula is the
routine that the store holds under its key and, where it holds none, what is built from the tokens.
-/

set_option autoImplicit false

namespace SheetFormula.Compiler

/-! ### Whole formulas -/

/-- No formula is read as an open range or as nothing at all, so the check of the root refuses none. -/
theorem checkRoot_of_ofTokens {reading : Reading} {tokens : List Token} {root : Expr}
    (h : Expr.ofTokens reading tokens = .ok root) : checkRoot root = .ok () := by
  obtain ⟨hformed, homitted⟩ := Expr.isOperand_callable h
  cases root with
  | leaf l atom =>
    cases atom with
    | empty => cases homitted
    | _ => rfl
  | binary l a b =>
    obtain ⟨⟨hbinds, -⟩, -⟩ := (Expr.wellFormed_binary l a b).mp hformed
    refine if_neg fun hcolon => ?_
    rw [hcolon] at hbinds
    exact absurd hbinds (by decide)
  | _ => rfl

/-- What is built is the routine of the tree that is read. -/
theorem build_eq_bind (c : Compiler) (key : String) (tokens : List Token) :
    c.build key tokens = Expr.ofTokens { locale := c.locale } tokens >>=
      Routine.ofExpr c.registry c.targeting key := by
  unfold build
  cases hroot : Expr.ofTokens { locale := c.locale } tokens with
  | error fault => rfl
  | ok root =>
    change (checkRoot root >>= fun _ => Routine.ofExpr c.registry c.targeting key root) = _
    rw [checkRoot_of_ofTokens hroot]
    rfl

/-! ### Outcomes -/

variable (c : Compiler) (formula : String)

/-- The literals of a formula, with its key. -/
def literals : Literals :=
  .ofTokens c.locale (Token.rangeTokenize c.locale formula)

/-- The structural key of a formula. -/
def key : String :=
  (c.literals formula).key

/-- What is made of a formula where nothing is at hand. -/
def fresh : Except Fault Routine :=
  match (c.literals formula).unreadable with
  | some text => .error (.bad (.unreadableNumber text) (-1) "")
  | none => c.build (c.key formula) (Token.rangeTokenize c.locale formula)

variable {c formula} {s : Store} {built : Built} {routine : Routine} {fault : Fault}

theorem literals_compile : (c.compile s formula).1.literals = c.literals formula := by
  simp only [compile, compileTokens]
  split <;> rfl

theorem outcome_compile : (c.compile s formula).1.outcome =
    (c.outcome s (c.literals formula) (Token.rangeTokenize c.locale formula)).1 := by
  simp only [compile, compileTokens]
  split <;> rfl

theorem store_compile : (c.compile s formula).2.1 =
    (c.outcome s (c.literals formula) (Token.rangeTokenize c.locale formula)).2.1 := by
  simp only [compile, compileTokens]
  split <;> rfl

theorem fresh_of_readable (h : (c.literals formula).unreadable = none) :
    c.fresh formula = c.build (c.key formula) (Token.rangeTokenize c.locale formula) := by
  rw [fresh, h]

theorem readable_of_fresh (h : c.fresh formula = .ok routine) :
    (c.literals formula).unreadable = none := by
  unfold fresh at h
  split at h
  · cases h
  · assumption

/-- A formula whose key is at hand takes the routine from there. -/
theorem outcome_of_found (hread : (c.literals formula).unreadable = none)
    (h : s.cache.find? (c.key formula) = some built) :
    (c.compile s formula).1.outcome = .ok built := by
  have hfind : s.cache.find? (c.literals formula).key = some built := h
  rw [outcome_compile, outcome, hread]
  simp only [routine, Cache.get?, hfind]

/-- A formula whose key is not at hand is compiled as if nothing were. -/
theorem outcome_of_missing (h : s.cache.find? (c.key formula) = none) :
    (c.compile s formula).1.outcome = (c.fresh formula).map fun r => ⟨s.built, r⟩ := by
  have hfind : s.cache.find? (c.literals formula).key = none := h
  rw [outcome_compile, outcome]
  cases hread : (c.literals formula).unreadable with
  | some text => rw [fresh, hread]; rfl
  | none =>
    rw [fresh_of_readable hread]
    simp only [routine, Cache.get?, hfind]
    cases hbuild : c.build (c.literals formula).key (Token.rangeTokenize c.locale formula) with
    | error fault => simp only [key, hbuild]; rfl
    | ok routine => simp only [key, hbuild, Cache.add, hfind]; rfl

theorem outcome_of_unreadable {text : String}
    (h : (c.literals formula).unreadable = some text) :
    (c.compile s formula).1.outcome = (c.fresh formula).map fun r => ⟨s.built, r⟩ := by
  rw [outcome_compile, outcome, fresh, h]
  rfl

/-- A compiler with nothing at hand. -/
theorem outcome_ofCapacity (capacity : Int) :
    (c.compile (.ofCapacity capacity) formula).1.outcome =
      (c.fresh formula).map fun r => ⟨0, r⟩ :=
  outcome_of_missing rfl

theorem fresh_of_outcome {capacity : Int}
    (h : (c.compile (.ofCapacity capacity) formula).1.outcome = .ok built) :
    c.fresh formula = .ok built.routine := by
  rw [outcome_ofCapacity] at h
  cases hfresh : c.fresh formula with
  | ok routine =>
    rw [hfresh] at h
    cases h
    rfl
  | error fault =>
    rw [hfresh] at h
    cases h

theorem fresh_of_refused {capacity : Int}
    (h : (c.compile (.ofCapacity capacity) formula).1.outcome = .error fault) :
    c.fresh formula = .error fault := by
  rw [outcome_ofCapacity] at h
  cases hfresh : c.fresh formula with
  | ok routine =>
    rw [hfresh] at h
    cases h
  | error fault =>
    rw [hfresh] at h
    cases h
    rfl

theorem fresh_of_not_isBad {capacity : Int}
    (h : (c.compile (.ofCapacity capacity) formula).1.isBad = false) :
    ∃ routine, c.fresh formula = .ok routine := by
  rw [Compiled.isBad, outcome_ofCapacity] at h
  cases hfresh : c.fresh formula with
  | ok routine => exact ⟨routine, rfl⟩
  | error fault => simp [hfresh, Except.map] at h

theorem isBad_ofCapacity {capacity : Int} (h : c.fresh formula = .ok routine) :
    (c.compile (.ofCapacity capacity) formula).1.isBad = false := by
  rw [Compiled.isBad, outcome_ofCapacity, h]
  rfl

theorem mem_of_mem_promote {α : Type} {cache : Cache α} {key : String} {value : α}
    {entry : String × α} (hvalue : (key, value) ∈ cache.entries)
    (h : entry ∈ (cache.promote key value).entries) : entry ∈ cache.entries := by
  unfold Cache.promote at h
  split at h
  · exact h
  · rcases List.mem_cons.mp h with rfl | h
    · exact hvalue
    · exact (List.mem_filter.mp h).1

theorem mem_of_mem_insert {α : Type} {cache : Cache α} {key : String} {value : α}
    {entry : String × α} (h : entry ∈ (cache.insert key value).entries) :
    entry = (key, value) ∨ entry ∈ cache.entries := by
  simp only [Cache.insert] at h
  rcases List.mem_cons.mp h with rfl | h
  · exact .inl rfl
  · split at h
    · exact .inr (List.dropLast_subset _ h)
    · exact .inr h

theorem mem_of_find? {α : Type} {cache : Cache α} {key : String} {value : α}
    (h : cache.find? key = some value) : (key, value) ∈ cache.entries := by
  obtain ⟨before, after, heq, -⟩ := List.lookup_eq_some_iff.mp h
  rw [heq]
  simp

/-- Compiling puts at most one entry into the store, and that one is made from the formula alone. -/
theorem mem_of_mem_compile {key : String}
    (h : (key, built) ∈ (c.compile s formula).2.1.cache.entries) :
    (key, built) ∈ s.cache.entries ∨
      key = c.key formula ∧ c.fresh formula = .ok built.routine := by
  rw [store_compile, outcome] at h
  cases hread : (c.literals formula).unreadable with
  | some text =>
    rw [hread] at h
    exact .inl h
  | none =>
    rw [hread] at h
    simp only [routine, Cache.get?] at h
    cases hfind : s.cache.find? (c.literals formula).key with
    | some found =>
      rw [hfind] at h
      exact .inl (mem_of_mem_promote (mem_of_find? hfind) h)
    | none =>
      rw [hfind] at h
      rw [fresh_of_readable hread]
      cases hbuild : c.build (c.literals formula).key (Token.rangeTokenize c.locale formula) with
      | error fault =>
        simp only [hbuild] at h
        exact .inl h
      | ok routine =>
        simp only [hbuild, Cache.add, hfind] at h
        rcases mem_of_mem_insert h with heq | h
        · cases heq
          exact .inr ⟨rfl, hbuild⟩
        · exact .inl h

theorem mem_of_mem_forget {entry : String × Built}
    (h : entry ∈ (c.forget s formula).2.cache.entries) : entry ∈ s.cache.entries :=
  (List.mem_filter.mp h).1

end SheetFormula.Compiler
