import SheetFormula.Proofs.Fusion
import SheetFormula.Proofs.Independence
import SheetFormula.Proofs.Numerals

/-!
No formula is refused for a number that cannot be read. Only the reader of terminals and the pass that
collects literals complain of such a number, and each of them about a number among the tokens. The
numbers that are cut from a text can all be read, in every locale whose decimal separator is unambiguous.
-/

set_option autoImplicit false

namespace SheetFormula

/-- The fault is that a number cannot be read. -/
def Reason.blamesNumber : Reason → Bool
  | .unreadableNumber _ => true
  | _ => false

/-- Whatever goes wrong, no number is to blame. -/
def SparesNumbers {α : Type} (x : Except Fault α) : Prop :=
  ∀ fault, x = .error fault → fault.reason.blamesNumber = false

namespace SparesNumbers

variable {α β : Type} {x : Except Fault α}

theorem ok (a : α) : SparesNumbers (.ok a : Except Fault α) := by
  rintro fault ⟨⟩

theorem error {fault : Fault} (h : fault.reason.blamesNumber = false) :
    SparesNumbers (.error fault : Except Fault α) := by
  rintro _ ⟨⟩
  exact h

theorem bind {f : α → Except Fault β} (hx : SparesNumbers x) (hf : ∀ a, SparesNumbers (f a)) :
    SparesNumbers (x >>= f) := by
  cases x with
  | ok a => exact hf a
  | error fault => exact .error (hx fault rfl)

theorem map (hx : SparesNumbers x) (f : α → β) : SparesNumbers (x >>= fun a => pure (f a)) :=
  hx.bind fun a => .ok (f a)

end SparesNumbers

/-! ### Reading -/

namespace Parser

variable {limit : Option Nat} {stop : Nat} {t : Terminal} {stage : Stage} {reason : Reason}

theorem unreadable_of_startOperand {frames : List Frame}
    (h : startOperand limit frames t = .error reason) (hblames : reason.blamesNumber = true) :
    t.role = .unreadable := by
  unfold startOperand at h
  split at h
  · cases h
    cases hblames
  · cases hrole : t.role with
    | unreadable => rfl
    | operator =>
      simp only [hrole] at h
      split at h
      · cases h
      · cases h
        cases hblames
    | _ =>
      simp only [hrole] at h
      rcases h with ⟨⟩ <;> cases hblames

theorem spares_continueBracket {operand : Expr} {frames : List Frame}
    (h : continueBracket operand frames t = .error reason) : reason.blamesNumber = false := by
  unfold continueBracket at h
  split at h
  · split at h <;> cases h
    rfl
  · split at h <;> cases h
    rfl
  · split at h <;> cases h
    rfl
  · cases h
    rfl

/-- Only a terminal that cannot be read is blamed for that. -/
theorem unreadable_of_step (h : step limit t stage = .error reason)
    (hblames : reason.blamesNumber = true) : t.role = .unreadable := by
  cases stage with
  | operand frames => exact unreadable_of_startOperand h hblames
  | argument name index arguments frames =>
    simp only [step, startArgument] at h
    split at h
    · cases h
    · cases h
    · exact unreadable_of_startOperand h hblames
  | operator left frames =>
    simp only [step, continueOperand] at h
    split at h
    · rw [spares_continueBracket h] at hblames
      cases hblames
    · split at h <;> cases h

theorem spares_finish (h : finish limit stage = .error reason) : reason.blamesNumber = false := by
  unfold finish at h
  split at h
  · cases h
    split <;> rfl
  · cases h
    split <;> rfl
  · split at h <;> cases h <;> rfl

theorem exists_unreadable_of_run {fault : Fault} {terminals : List Terminal}
    (h : run limit stop stage terminals = .error fault)
    (hblames : fault.reason.blamesNumber = true) : ∃ t ∈ terminals, t.role = .unreadable := by
  induction terminals generalizing stage with
  | nil =>
    simp only [run] at h
    split at h
    · cases h
    · rename_i reason hfinish
      cases h
      rw [Fault.bad, spares_finish hfinish] at hblames
      cases hblames
  | cons t rest ih =>
    simp only [run] at h
    split at h
    · obtain ⟨u, hu, hrole⟩ := ih h
      exact ⟨u, List.mem_cons_of_mem t hu, hrole⟩
    · rename_i reason hstep
      cases h
      exact ⟨t, List.mem_cons_self, unreadable_of_step hstep hblames⟩

theorem mem_of_mem_dropEquals {terminals : List Terminal} (h : t ∈ dropEquals terminals) :
    t ∈ terminals := by
  rcases dropEquals_cases terminals with heq | ⟨u, heq, -⟩
  · rwa [heq] at h
  · rw [heq]
    exact List.mem_cons_of_mem u h

end Parser

/-- Tokens whose numbers can all be read are not refused for one of them. -/
theorem Expr.sparesNumbers_ofTokens {reading : Reading} {tokens : List Token}
    (h : ∀ t ∈ tokens, t.kind = .number → (Literal.number? reading.locale t.text).isSome) :
    SparesNumbers (ofTokens reading tokens) := by
  unfold ofTokens
  split
  · exact .error rfl
  · intro fault hfault
    by_contra hblames
    obtain ⟨t, ht, hrole⟩ := Parser.exists_unreadable_of_run hfault (by simpa using hblames)
    exact Literals.readable_ofTokens h t (Parser.mem_of_mem_dropEquals ht) hrole

/-! ### Generating code -/

namespace Generate

variable {registry : Registry} {targeting : Targeting} {s : Signature}

theorem sparesNumbers_leaf (l : Label) (atom : Atom) (context : Context) (c : Counters) :
    SparesNumbers (leaf l atom context c) := by
  unfold leaf
  cases atom with
  | reference =>
    simp only
    split <;> exact .ok _
  | other kind => exact .error rfl
  | _ => exact .ok _

theorem sparesNumbers_checkArgument (name : String) (position : Nat) (a : Argument) (e : Expr) :
    SparesNumbers (checkArgument name position a e) := by
  unfold checkArgument
  split
  · exact .error rfl
  · split
    · exact .error rfl
    · exact .ok _

theorem sparesNumbers_contextFor (name : String) (target : Nat → Except String Target)
    (position : Nat) (e : Expr) : SparesNumbers (contextFor name s target position e) := by
  unfold contextFor
  split
  · exact .error rfl
  · split
    · split
      · exact (sparesNumbers_checkArgument name position _ e).map _
      · exact .error rfl
    · exact .ok _

theorem blamesNumber_of_groupFault? {start rest : Int} {reason : Reason}
    (h : s.groupFault? start rest = some reason) : reason.blamesNumber = false := by
  simp only [Signature.groupFault?] at h
  split at h <;> cases h
  rfl

theorem blamesNumber_of_countFault? {count : Int} {reason : Reason}
    (h : s.countFault? count = some reason) : reason.blamesNumber = false := by
  unfold Signature.countFault? at h
  split at h
  · cases h
    rfl
  · split at h
    · cases h
      rfl
    · split at h <;> exact blamesNumber_of_groupFault? h

theorem sparesNumbers_resolve (l : Label) (count : Nat) :
    SparesNumbers (resolve registry targeting l count) := by
  simp only [resolve]
  split
  · exact .error rfl
  · split
    · rename_i s _ fault hfault
      unfold Signature.checkCount at hfault
      split at hfault
      · cases hfault
      · rename_i reason hreason
        cases hfault
        exact .error (blamesNumber_of_countFault? hreason)
    · split
      · exact .error rfl
      · exact .ok _

theorem sparesNumbers_arguments {es : List Expr}
    (hes : ∀ e ∈ es, ∀ context c, SparesNumbers (expr registry targeting context c e))
    (name : String) (target : Nat → Except String Target) (position : Nat) (c : Counters) :
    SparesNumbers (arguments registry targeting name s target position c es) := by
  induction es generalizing position c with
  | nil => exact .ok _
  | cons e es ih =>
    obtain ⟨he, hes⟩ := List.forall_mem_cons.mp hes
    exact (sparesNumbers_contextFor name target position e).bind fun context =>
      (he context c).bind fun p => (ih hes (position + 1) p.counters).map _

theorem sparesNumbers_cells {es : List Expr}
    (hes : ∀ e ∈ es, ∀ context c, SparesNumbers (expr registry targeting context c e)) (c : Counters) :
    SparesNumbers (cells registry targeting c es) := by
  induction es generalizing c with
  | nil => exact .ok _
  | cons e es ih =>
    obtain ⟨he, hes⟩ := List.forall_mem_cons.mp hes
    exact (he {} c).bind fun p => (ih hes p.counters).map _

theorem sparesNumbers_rows {rs : List (List Expr)}
    (hrs : ∀ r ∈ rs, ∀ e ∈ r, ∀ context c, SparesNumbers (expr registry targeting context c e))
    (l : Label) (columns : Nat) (c : Counters) :
    SparesNumbers (rows registry targeting l columns c rs) := by
  induction rs generalizing c with
  | nil => exact .ok _
  | cons r rs ih =>
    obtain ⟨hr, hrs⟩ := List.forall_mem_cons.mp hrs
    unfold rows
    split
    · exact .error rfl
    · exact (sparesNumbers_cells hr c).bind fun ps => (ih hrs ps.counters).map _

/-- A number of a tree has been read. -/
theorem sparesNumbers_expr (e : Expr) (context : Context) (c : Counters) :
    SparesNumbers (expr registry targeting context c e) := by
  induction e generalizing context c with
  | leaf l atom => exact (sparesNumbers_leaf l atom context c).map _
  | unary l suffix e ih => exact (ih {} c).map _
  | binary l a b iha ihb =>
    unfold expr
    split
    · exact .error rfl
    · exact (iha {} c).bind fun p => (ihb {} p.counters).map _
  | call l as ih =>
    exact (sparesNumbers_resolve l as.length).bind fun found =>
      (sparesNumbers_arguments ih (Text.upper l.text) found.2 0 c).map _
  | array l rs ih => exact (sparesNumbers_rows ih l _ c).map _

end Generate

/-! ### Formulas -/

namespace Compiler

variable {c : Compiler} {formula : String} {s : Store}

theorem sparesNumbers_build {tokens : List Token} {key : String}
    (h : ∀ t ∈ tokens, t.kind = .number → (Literal.number? c.locale t.text).isSome) :
    SparesNumbers (c.build key tokens) := by
  have hroot : SparesNumbers (Expr.ofTokens { locale := c.locale } tokens) :=
    Expr.sparesNumbers_ofTokens h
  rw [build_eq_bind]
  exact hroot.bind fun root => (Generate.sparesNumbers_expr root {} {}).map _

/-- Whatever is at hand, a formula whose numbers can all be read is not refused for one of them. -/
theorem sparesNumbers_compile
    (h : ∀ t ∈ Token.rangeTokenize c.locale formula, t.kind = .number →
      (Literal.number? c.locale t.text).isSome) :
    SparesNumbers (c.compile s formula).1.outcome := by
  have hread : (c.literals formula).unreadable = none := Literals.unreadable_of_readable h
  cases hfound : s.cache.find? (c.key formula) with
  | some built =>
    rw [outcome_of_found hread hfound]
    exact .ok built
  | none =>
    rw [outcome_of_missing hfound, fresh_of_readable hread]
    exact (sparesNumbers_build h).map _

end Compiler

namespace Token

variable {locale : Locale}

theorem isSome_number? (hlocale : locale.isUnambiguous = true) {formula : String} {t : Token}
    (h : t ∈ tokenize locale formula) (hkind : t.kind = .number) :
    (Literal.number? locale t.text).isSome := by
  obtain ⟨numeral, hspelt⟩ := exists_speltWith h hkind
  rw [Literal.number?_of_speltWith hlocale hspelt]
  rfl

/-- Every number that is cut from a formula can be read. It spells a numeral with the separator of the
locale, and that numeral is what it reads as. So no number of a formula is remembered as unreadable, and a
formula is refused for such a number neither when its tokens are read, with their ranges put together or
not and under any limit on nesting, nor when it is compiled, whatever is at hand. -/
theorem tokenized_numbers_read (hlocale : locale.isUnambiguous = true) (formula : String) :
    (∀ t ∈ tokenize locale formula, t.kind = .number →
        ∃ numeral : Number.Numeral, numeral.SpeltWith locale.decimal.toList t.text.toList ∧
          Literal.number? locale t.text = some (numeral.round false)) ∧
      (∀ tokens ∈ [tokenize locale formula, rangeTokenize locale formula],
        (Literals.ofTokens locale tokens).unreadable = none ∧
          ∀ limit fault, Expr.ofTokens ⟨locale, limit⟩ tokens = .error fault →
            fault.reason.blamesNumber = false) ∧
      ∀ registry targeting store fault,
        (Compiler.compile ⟨registry, targeting, locale⟩ store formula).1.outcome = .error fault →
          fault.reason.blamesNumber = false := by
  have hread : ∀ tokens ∈ [tokenize locale formula, rangeTokenize locale formula],
      ∀ t ∈ tokens, t.kind = .number → (Literal.number? locale t.text).isSome := by
    simp only [List.mem_cons, List.not_mem_nil, or_false]
    rintro tokens (rfl | rfl) t ht hkind
    · exact isSome_number? hlocale ht hkind
    · rcases mem_fuseRanges ht with hmem | ⟨left, -, right, -, -, rfl⟩
      · exact isSome_number? hlocale hmem hkind
      · cases hkind
  refine ⟨fun t ht hkind => ?_, fun tokens htokens => ⟨?_, fun limit => ?_⟩,
    fun registry targeting store => ?_⟩
  · obtain ⟨numeral, hspelt⟩ := exists_speltWith ht hkind
    exact ⟨numeral, hspelt, Literal.number?_of_speltWith hlocale hspelt⟩
  · exact Literals.unreadable_of_readable (hread tokens htokens)
  · exact Expr.sparesNumbers_ofTokens (hread tokens htokens)
  · exact Compiler.sparesNumbers_compile (hread _ (by simp))

/-- Of a separator of two characters that stands within a number, in front of one and after another. The
formula is refused, but for a number that follows a number. -/
theorem underscored_numbers_read :
    let locale : Locale := ⟨"._", ";"⟩
    let formula := "=1._5e-3+._5._6E2*7._"
    let numbers := ["1._5e-3", "._5", "._6E2", "7._"]
    locale.isUnambiguous = true ∧
      ((tokenize locale formula).filter (·.kind == .number)).map text = numbers ∧
      (∀ s ∈ numbers, (Literal.number? locale s).isSome) ∧
      ∃ fault, Expr.parse ⟨locale, some 9⟩ formula = .error fault ∧
        fault.reason.blamesNumber = false := by
  intro locale formula numbers
  have hlocale : locale.isUnambiguous = true := by decide +kernel
  have hnumbers : ((tokenize locale formula).filter (·.kind == .number)).map text = numbers := by
    decide +kernel
  obtain ⟨hread, hrefused, -⟩ := tokenized_numbers_read hlocale formula
  refine ⟨hlocale, hnumbers, ?_, ?_⟩
  · rw [← hnumbers]
    refine List.forall_mem_map.mpr fun t ht => ?_
    obtain ⟨hmem, hkind⟩ := List.mem_filter.mp ht
    obtain ⟨numeral, -, hvalue⟩ := hread t hmem (eq_of_beq hkind)
    rw [hvalue]
    rfl
  · have hbad : (Expr.parse ⟨locale, some 9⟩ formula).isOk = false := by decide +kernel
    cases hparse : Expr.parse ⟨locale, some 9⟩ formula with
    | ok root =>
      rw [hparse] at hbad
      cases hbad
    | error fault => exact ⟨fault, rfl, (hrefused _ (by simp)).2 (some 9) fault hparse⟩

/-- A separator that can stand in an exponent is taken for a point there. -/
example :
    tokenize ⟨"+", ";"⟩ "1e+5" = [⟨.number, "1e+5"⟩] ∧ Literal.number? ⟨"+", ";"⟩ "1e+5" = none := by
  decide +kernel

end Token

end SheetFormula
