import SheetFormula.Proofs.Compiling
import SheetFormula.Proofs.Congruence

/-!
Literals do not influence compilation. Of a number only counts that it can be read, of a string nothing,
and of a reference whether it names a range. What differs in nothing else has one key, and a compiler
with nothing at hand makes the same routine of it or refuses it at the same token for the same cause.
-/

set_option autoImplicit false

namespace SheetFormula

/-! ### Trees -/

namespace Expr

/-- Trees that differ only in their numbers, their strings and the spelling of their references. A range
stays a range. -/
inductive Alike : Expr → Expr → Prop
  | number (text text' : String) (debug : Bool) (span : Span) (value value' : Number) :
    Alike (.leaf ⟨text, debug, span⟩ (.number value)) (.leaf ⟨text', debug, span⟩ (.number value'))
  | string (text text' : String) (debug : Bool) (span : Span) :
    Alike (.leaf ⟨text, debug, span⟩ .string) (.leaf ⟨text', debug, span⟩ .string)
  | reference {text text' : String} (debug : Bool) (span : Span)
    (range : namesRange text = namesRange text') :
    Alike (.leaf ⟨text, debug, span⟩ .reference) (.leaf ⟨text', debug, span⟩ .reference)
  | leaf (l : Label) (a : Atom) : Alike (.leaf l a) (.leaf l a)
  | unary {e e' : Expr} (l : Label) (suffix : Bool) (operand : Alike e e') :
    Alike (.unary l suffix e) (.unary l suffix e')
  | binary {a a' b b' : Expr} (l : Label) (left : Alike a a') (right : Alike b b') :
    Alike (.binary l a b) (.binary l a' b')
  | call {as as' : List Expr} (l : Label) (arguments : List.Forall₂ Alike as as') :
    Alike (.call l as) (.call l as')
  | array {rs rs' : List (List Expr)} (l : Label) (rows : List.Forall₂ (List.Forall₂ Alike) rs rs') :
    Alike (.array l rs) (.array l rs')

variable {e e' : Expr}

theorem Alike.span_eq (h : e.Alike e') : e.span = e'.span := by
  cases h <;> rfl

theorem Alike.marked (h : e.Alike e') (index : Int) : (e.marked index).Alike (e'.marked index) := by
  cases h with
  | number text text' debug span value value' => exact .number ..
  | string text text' debug span => exact .string ..
  | reference debug span range => exact .reference _ _ range
  | leaf l a => exact .leaf ..
  | unary l suffix operand => exact .unary _ _ operand
  | binary l left right => exact .binary _ left right
  | call l arguments => exact .call _ arguments
  | array l rows => exact .array _ rows

theorem congruence_alike : Parser.Congruence Alike Eq where
  omitted := by
    rintro i _ rfl
    exact .leaf ..
  marked := by
    rintro e e' i _ he rfl
    exact he.marked i
  sign := by
    rintro e e' i _ op he rfl
    rw [he.span_eq]
    exact .unary _ _ he
  suffix := by
    rintro e e' i _ op he rfl
    rw [he.span_eq]
    exact .unary _ _ he
  operation := by
    rintro a a' b b' op ha hb
    rw [ha.span_eq, hb.span_eq]
    exact .binary _ ha hb
  call := by
    rintro as as' i _ j _ name has rfl rfl
    exact .call _ has
  array := by
    rintro rs rs' i _ j _ hrs rfl rfl
    exact .array _ hrs

end Expr

/-! ### Code -/

namespace Generate

open SheetFormula.Expr (Alike)

variable {registry : Registry} {targeting : Targeting} {e e' : Expr}

theorem checkArgument_alike (h : e.Alike e') (name : String) (position : Nat) (a : Argument) :
    checkArgument name position a e = checkArgument name position a e' := by
  have hkind : e.kind = e'.kind := by cases h <;> rfl
  have hliteral : literalName? e = literalName? e' := by cases h <;> rfl
  rw [checkArgument, checkArgument, hkind, hliteral, h.span_eq]

theorem contextFor_alike (h : e.Alike e') (name : String) (s : Signature)
    (target : Nat → Except String Target) (position : Nat) :
    contextFor name s target position e = contextFor name s target position e' := by
  simp only [contextFor, checkArgument_alike h]

theorem arguments_alike {es es' : List Expr} (h : List.Forall₂ Alike es es')
    (ih : ∀ e ∈ es, ∀ e' context c, e.Alike e' →
      expr registry targeting context c e = expr registry targeting context c e')
    (name : String) (s : Signature) (target : Nat → Except String Target) (position : Nat)
    (c : Counters) :
    arguments registry targeting name s target position c es =
      arguments registry targeting name s target position c es' := by
  induction h generalizing position c with
  | nil => rfl
  | cons he hes ihes =>
    obtain ⟨ihe, ih⟩ := List.forall_mem_cons.mp ih
    simp only [arguments, contextFor_alike he, ihe _ _ _ he, ihes ih]

theorem cells_alike {es es' : List Expr} (h : List.Forall₂ Alike es es')
    (ih : ∀ e ∈ es, ∀ e' context c, e.Alike e' →
      expr registry targeting context c e = expr registry targeting context c e')
    (c : Counters) : cells registry targeting c es = cells registry targeting c es' := by
  induction h generalizing c with
  | nil => rfl
  | cons he hes ihes =>
    obtain ⟨ihe, ih⟩ := List.forall_mem_cons.mp ih
    simp only [cells, ihe _ _ _ he, ihes ih]

theorem rows_alike {rs rs' : List (List Expr)} (h : List.Forall₂ (List.Forall₂ Alike) rs rs')
    (ih : ∀ r ∈ rs, ∀ e ∈ r, ∀ e' context c, e.Alike e' →
      expr registry targeting context c e = expr registry targeting context c e')
    (l : Label) (columns : Nat) (c : Counters) :
    rows registry targeting l columns c rs = rows registry targeting l columns c rs' := by
  induction h generalizing c with
  | nil => rfl
  | cons hr hrs ihrs =>
    obtain ⟨ihr, ih⟩ := List.forall_mem_cons.mp ih
    simp only [rows, hr.length_eq, cells_alike hr ihr, ihrs ih]

/-- Trees that are alike have the same code or the same fault. -/
theorem expr_alike (h : e.Alike e') (context : Context) (c : Counters) :
    expr registry targeting context c e = expr registry targeting context c e' := by
  induction e generalizing e' context c with
  | leaf l a =>
    cases h with
    | number => rfl
    | string => rfl
    | reference debug span range => simp only [expr, leaf, range, announce]
    | leaf => rfl
  | unary l suffix a ih =>
    cases h with
    | unary _ _ operand => simp only [expr, ih operand]
  | binary l a b iha ihb =>
    cases h with
    | binary _ left right => simp only [expr, iha left, ihb right]
  | call l as ih =>
    cases h with
    | call _ has =>
      simp only [expr, has.length_eq, arguments_alike has fun a ha _ context c h => ih a ha h context c]
  | array l rs ih =>
    cases h with
    | @array _ rs' _ hrs =>
      -- the first row fixes how many columns the code announces
      have hcolumns : (rs.headD []).length = (rs'.headD []).length := by
        cases hrs with
        | nil => rfl
        | cons hr _ => exact hr.length_eq
      simp only [expr, hcolumns,
        rows_alike hrs fun r hr a ha _ context c h => ih r hr a ha h context c]

end Generate

/-! ### Tokens -/

/-- Tokens of one kind. Numbers, strings and references may have different texts, but numbers can be
read and a reference to a range stays one. -/
structure Token.Alike (locale : Locale) (t t' : Token) : Prop where
  kind : t.kind = t'.kind
  text : t.kind ∉ [Kind.number, .string, .reference] → t.text = t'.text
  readable : t.kind = .number →
    (Literal.number? locale t.text).isSome ∧ (Literal.number? locale t'.text).isSome
  range : t.kind = .reference → (':' ∈ t.text.toList ↔ ':' ∈ t'.text.toList)

variable {locale : Locale} {t t' : Token} {tokens tokens' : List Token}

namespace Token

instance : Decidable (t.Alike locale t') :=
  decidable_of_iff
    (t.kind = t'.kind ∧ (t.kind ∉ [Kind.number, .string, .reference] → t.text = t'.text) ∧
      (t.kind = .number →
        (Literal.number? locale t.text).isSome ∧ (Literal.number? locale t'.text).isSome) ∧
      (t.kind = .reference → (':' ∈ t.text.toList ↔ ':' ∈ t'.text.toList)))
    ⟨fun ⟨kind, text, readable, range⟩ => ⟨kind, text, readable, range⟩,
      fun h => ⟨h.kind, h.text, h.readable, h.range⟩⟩

theorem Alike.forall_readable (h : List.Forall₂ (Alike locale) tokens tokens') :
    (∀ t ∈ tokens, t.kind = .number → (Literal.number? locale t.text).isSome) ∧
      ∀ t ∈ tokens', t.kind = .number → (Literal.number? locale t.text).isSome := by
  induction h with
  | nil => exact ⟨List.forall_mem_nil _, List.forall_mem_nil _⟩
  | cons ht _ ih =>
    exact ⟨List.forall_mem_cons.mpr ⟨fun hkind => (ht.readable hkind).1, ih.1⟩,
      List.forall_mem_cons.mpr ⟨fun hkind => (ht.readable (ht.kind.trans hkind)).2, ih.2⟩⟩

theorem Alike.sameShape (h : t.Alike locale t') : t.SameShape t' where
  kind := h.kind
  text := by
    rintro (hkind | hkind)
    · exact h.text (by simp [hkind])
    · exact h.text (by simp [hkind])

theorem Alike.namesRange_eq (h : t.Alike locale t') (hkind : t.kind = .reference) :
    Expr.namesRange t.text = Expr.namesRange t'.text := by
  rw [Expr.namesRange, Expr.namesRange, Bool.eq_iff_iff, List.contains_iff_mem,
    List.contains_iff_mem]
  exact h.range hkind

theorem namesRange_join (s s' : String) : Expr.namesRange (s ++ ":" ++ s') = true := by
  simp [Expr.namesRange]

theorem Alike.roleOf (h : t.Alike locale t') (index : Nat) :
    (Terminal.roleOf locale t index).Like Expr.Alike (Terminal.roleOf locale t' index) := by
  obtain ⟨kind, text⟩ := t
  obtain ⟨kind', text'⟩ := t'
  obtain rfl : kind = kind' := h.kind
  cases kind with
  | number =>
    obtain ⟨hread, hread'⟩ := h.readable rfl
    obtain ⟨value, hvalue⟩ := Option.isSome_iff_exists.mp hread
    obtain ⟨value', hvalue'⟩ := Option.isSome_iff_exists.mp hread'
    simp only [Terminal.roleOf, hvalue, hvalue']
    exact .operand (.number ..)
  | string => exact .operand (.string ..)
  | reference => exact .operand (.reference _ _ (h.namesRange_eq rfl))
  | symbol =>
    obtain rfl : text = text' := h.text (by simp)
    simp only [Terminal.roleOf, Terminal.nameLeaf]
    split
    · exact .operand (.leaf ..)
    · split <;> exact .operand (.leaf ..)
  | invalidReference => exact .operand (.leaf ..)
  | _ => exact .same (by simp [Terminal.roleOf])

end Token

/-- Tokens that are alike are both read or both refused at the same token. -/
theorem Expr.ofTokens_alike (limit : Option Nat)
    (h : List.Forall₂ (Token.Alike locale) tokens tokens') :
    Agree (fun f f' => f.code = f'.code ∧ f.position = f'.position ∧ f.cause = f'.cause)
      Expr.Alike (ofTokens ⟨locale, limit⟩ tokens) (ofTokens ⟨locale, limit⟩ tokens') := by
  refine ofTokens_like congruence_alike ?_ h.length_eq rfl ?_
  · rintro reason reason' text text' i _ rfl
    exact ⟨rfl, rfl, rfl⟩
  · refine Terminal.like_ofTokens (fun _ _ ht => ht.sameShape) (fun _ _ i ht => ht.roleOf i) ?_ h
    intro t t' v v' i j ht hv htkind hvkind
    exact .reference _ _ (by rw [Token.namesRange_join, Token.namesRange_join])

namespace Literals

theorem key_addToken_alike {l l' : Literals} (h : t.Alike locale t') (hl : l.key = l'.key) :
    (addToken locale t l).key = (addToken locale t' l').key := by
  obtain ⟨kind, text⟩ := t
  obtain ⟨kind', text'⟩ := t'
  obtain rfl : kind = kind' := h.kind
  cases kind with
  | number =>
    simp only [addToken, addNumber]
    split <;> split <;> exact congrArg ("|N|" ++ ·) hl
  | string => exact congrArg ("|S|" ++ ·) hl
  | reference =>
    have hrange : Expr.namesRange text = Expr.namesRange text' := h.namesRange_eq rfl
    simp only [addToken, addReference, addKey, hrange, hl]
  | space => exact hl
  | symbol =>
    obtain rfl : text = text' := h.text (by simp)
    simp only [addToken, addSymbol]
    split <;> exact congrArg (text ++ ·) hl
  | invalidReference => exact congrArg ("|C|" ++ ·) hl
  | _ =>
    obtain rfl : text = text' := h.text (by simp)
    exact congrArg (text ++ ·) hl

/-- Tokens that are alike have one key. -/
theorem key_ofTokens_alike (h : List.Forall₂ (Token.Alike locale) tokens tokens') :
    (ofTokens locale tokens).key = (ofTokens locale tokens').key := by
  have hpaired := Terminal.forall₂_significant (fun _ _ ht => ht.kind) h
  have hspaces u (hu : u ∈ Terminal.significant tokens) := (mem_of_mem_significant hu).2
  have hspaces' u (hu : u ∈ Terminal.significant tokens') := (mem_of_mem_significant hu).2
  -- the key does not see spaces, and without them the lists fall into the same calls and joins
  rw [← ofTokens_unspaced, ← map_fst_significant, ← ofTokens_unspaced locale tokens',
    ← map_fst_significant]
  generalize Terminal.significant tokens = xs, Terminal.significant tokens' = xs'
    at hpaired hspaces hspaces'
  induction hpaired using Terminal.pairedInduction fun _ _ ht => Token.Alike.sameShape ht with
  | nil => rfl
  | call t t' u u' xs xs' ht hu _ hcall hcall' ih =>
    have hrest := ih (fun v hv => hspaces v (by simp [hv])) (fun v hv => hspaces' v (by simp [hv]))
    rw [List.map_cons, List.map_cons, ofTokens_call hcall, List.map_cons, List.map_cons,
      ofTokens_call hcall']
    simp only [Terminal.startsCall, Bool.and_eq_true, beq_iff_eq] at hcall
    simp only [addKey, hrest, ht.1.text (by simp [hcall.1.1]), hu.1.text (by simp [hcall.1.2])]
  | join t t' u u' v v' xs xs' ht hu hv _ hjoins hjoins' ih =>
    have hrest := ih (fun w hw => hspaces w (by simp [hw])) (fun w hw => hspaces' w (by simp [hw]))
    rw [List.map_cons, List.map_cons, List.map_cons, ofTokens_join hjoins, List.map_cons,
      List.map_cons, List.map_cons, ofTokens_join hjoins']
    simp only [addReference, addKey, Token.namesRange_join, hrest]
  | alone t t' xs xs' ht _ halone halone' ih =>
    obtain ⟨-, hspaces⟩ := List.forall_mem_cons.mp hspaces
    obtain ⟨-, hspaces'⟩ := List.forall_mem_cons.mp hspaces'
    rw [List.map_cons, ofTokens_alone halone (by simpa using hspaces), List.map_cons,
      ofTokens_alone halone' (by simpa using hspaces')]
    exact key_addToken_alike ht.1 (ih hspaces hspaces')

theorem roleOf_ne_unreadable (h : t.kind = .number → (Literal.number? locale t.text).isSome)
    (index : Nat) : Terminal.roleOf locale t index ≠ .unreadable := by
  unfold Terminal.roleOf
  cases hkind : t.kind with
  | number =>
    obtain ⟨value, hvalue⟩ := Option.isSome_iff_exists.mp (h hkind)
    simp [hvalue]
  | _ => simp

/-- Tokens whose numbers can all be read have no unreadable terminals. -/
theorem readable_ofTokens
    (h : ∀ t ∈ tokens, t.kind = .number → (Literal.number? locale t.text).isSome) :
    Readable (Terminal.ofTokens locale tokens) := by
  have hread u (hu : u ∈ Terminal.significant tokens) := h u.1 (mem_of_mem_significant hu).1
  rw [Terminal.ofTokens]
  generalize Terminal.significant tokens = xs at hread
  induction xs using Terminal.terminalInduction with
  | nil => exact List.forall_mem_nil _
  | call t u xs hcall ih =>
    rw [Terminal.ofIndexed_call hcall]
    exact List.forall_mem_cons.mpr ⟨by simp, ih fun v hv => hread v (by simp [hv])⟩
  | join t u v xs hjoins ih =>
    rw [Terminal.ofIndexed_join hjoins]
    exact List.forall_mem_cons.mpr ⟨by simp [Terminal.joined], ih fun w hw => hread w (by simp [hw])⟩
  | alone t xs halone ih =>
    rw [Terminal.ofIndexed_alone halone]
    obtain ⟨ht, hread⟩ := List.forall_mem_cons.mp hread
    exact List.forall_mem_cons.mpr ⟨roleOf_ne_unreadable ht t.2, ih hread⟩

/-- No number is remembered as unreadable where all of them can be read. -/
theorem unreadable_of_readable
    (h : ∀ t ∈ tokens, t.kind = .number → (Literal.number? locale t.text).isSome) :
    (ofTokens locale tokens).unreadable = none := by
  rw [← ofTokens_unspaced, ← map_fst_significant]
  exact unreadable_ofIndexed _ (fun t ht => (mem_of_mem_significant ht).2) (readable_ofTokens h)

end Literals

/-- Trees that are alike have the same routine or the same fault. -/
theorem Routine.ofExpr_alike {registry : Registry} {targeting : Targeting} {e e' : Expr}
    (h : e.Alike e') (key : String) :
    Routine.ofExpr registry targeting key e = Routine.ofExpr registry targeting key e' := by
  rw [Routine.ofExpr, Routine.ofExpr, Generate.expr_alike h]

theorem Compiled.normalForm_of_ok {f : Compiled} {built : Built} (h : f.outcome = .ok built) :
    f.normalForm = f.literals.key := by
  rw [normalForm, h]

namespace Compiler

variable (c : Compiler) (capacity capacity' : Int)

theorem literals_compileTokens (s : Store) (tokens : List Token) :
    (c.compileTokens s tokens).1.literals = Literals.ofTokens c.locale tokens := by
  simp only [compileTokens]
  split <;> rfl

/-- What a compiler with nothing at hand makes of tokens whose numbers can all be read. -/
theorem outcome_compileTokens
    (h : ∀ t ∈ tokens, t.kind = .number → (Literal.number? c.locale t.text).isSome) :
    (c.compileTokens (.ofCapacity capacity) tokens).1.outcome =
      (c.build (Literals.ofTokens c.locale tokens).key tokens).map fun r => ⟨0, r⟩ := by
  have houtcome : (c.compileTokens (.ofCapacity capacity) tokens).1.outcome =
      (c.outcome (.ofCapacity capacity) (.ofTokens c.locale tokens) tokens).1 := by
    simp only [compileTokens]
    split <;> rfl
  rw [houtcome, outcome, Literals.unreadable_of_readable h]
  change (c.routine (.ofCapacity capacity) (Literals.ofTokens c.locale tokens).key tokens).1 = _
  simp only [routine, Cache.get?, Cache.find?, Store.ofCapacity, Cache.ofCapacity, List.lookup_nil]
  cases c.build (Literals.ofTokens c.locale tokens).key tokens <;> rfl

theorem build_alike (h : List.Forall₂ (Token.Alike c.locale) tokens tokens') (key : String) :
    Agree (fun f f' => f.code = f'.code ∧ f.position = f'.position ∧ f.cause = f'.cause) Eq
      (c.build key tokens) (c.build key tokens') := by
  have hroot := Expr.ofTokens_alike (some 256) h
  rw [build_eq_bind, build_eq_bind]
  generalize Expr.ofTokens ⟨c.locale, some 256⟩ tokens = root,
    Expr.ofTokens ⟨c.locale, some 256⟩ tokens' = root' at hroot ⊢
  cases hroot with
  | error hfault => exact .error hfault
  | @ok e e' he =>
    change Agree _ Eq (Routine.ofExpr c.registry c.targeting key e)
      (Routine.ofExpr c.registry c.targeting key e')
    rw [Routine.ofExpr_alike he]
    cases Routine.ofExpr c.registry c.targeting key e' with
    | ok routine => exact .ok rfl
    | error fault => exact .error ⟨rfl, rfl, rfl⟩

/-- Literals do not influence compilation. Let two lists of tokens differ only in the texts of numbers,
strings and references, all numbers be readable, and references to ranges correspond. Compilers with
nothing at hand give both the same key; they make the same routine of both, or refuse both with the same
code, position and cause. -/
theorem compileTokens_alike (h : List.Forall₂ (Token.Alike c.locale) tokens tokens') :
    let f := (c.compileTokens (.ofCapacity capacity) tokens).1
    let f' := (c.compileTokens (.ofCapacity capacity') tokens').1
    f.literals.key = f'.literals.key ∧
      ((∃ built, f.outcome = .ok built ∧ f'.outcome = .ok built ∧ f.normalForm = f'.normalForm) ∨
        ∃ fault fault', f.outcome = .error fault ∧ f'.outcome = .error fault' ∧
          fault.code = fault'.code ∧ fault.position = fault'.position ∧
          fault.cause = fault'.cause) := by
  intro f f'
  have hkey := Literals.key_ofTokens_alike h
  have hkeys : f.literals.key = f'.literals.key := by
    rw [literals_compileTokens, literals_compileTokens, hkey]
  obtain ⟨hread, hread'⟩ := Token.Alike.forall_readable h
  have hf := outcome_compileTokens c capacity hread
  have hf' := outcome_compileTokens c capacity' hread'
  have hbuild := build_alike c h (Literals.ofTokens c.locale tokens).key
  rw [← hkey] at hf'
  generalize c.build (Literals.ofTokens c.locale tokens).key tokens = routine,
    c.build (Literals.ofTokens c.locale tokens).key tokens' = routine' at hf hf' hbuild
  refine ⟨hkeys, ?_⟩
  cases hbuild with
  | @ok routine _ heq =>
    subst heq
    refine .inl ⟨⟨0, routine⟩, hf, hf', ?_⟩
    rw [Compiled.normalForm_of_ok hf, Compiled.normalForm_of_ok hf', hkeys]
  | error hfault => exact .inr ⟨_, _, hf, hf', hfault⟩

/-- A join of references, a number and a string beside others of their kinds, from which the same
routine is made. -/
theorem compileTokens_other_literals :
    let tokens : List Token :=
      [⟨.symbol, "SUM"⟩, ⟨.leftParen, "("⟩, ⟨.reference, "A1"⟩, ⟨.operator, ":"⟩, ⟨.reference, "B2"⟩,
        ⟨.argSeparator, ","⟩, ⟨.number, "1"⟩, ⟨.rightParen, ")"⟩, ⟨.operator, "&"⟩, ⟨.string, "\"a\""⟩]
    let tokens' : List Token :=
      [⟨.symbol, "SUM"⟩, ⟨.leftParen, "("⟩, ⟨.reference, "C7"⟩, ⟨.operator, ":"⟩, ⟨.reference, "C7"⟩,
        ⟨.argSeparator, ","⟩, ⟨.number, "2.5e3"⟩, ⟨.rightParen, ")"⟩, ⟨.operator, "&"⟩, ⟨.string, "\""⟩]
    let f := (compileTokens {} (.ofCapacity 0) tokens).1
    let f' := (compileTokens {} (.ofCapacity 5) tokens').1
    List.Forall₂ (Token.Alike .canonical) tokens tokens' ∧
      ∃ built, f.outcome = .ok built ∧ f'.outcome = .ok built ∧ f.normalForm = f'.normalForm := by
  intro tokens tokens' f f'
  have halike : List.Forall₂ (Token.Alike .canonical) tokens tokens' := by decide +kernel
  have hgood : f.isBad = false := by decide +kernel
  obtain ⟨-, hsame | ⟨fault, -, hfault, -⟩⟩ := compileTokens_alike {} 0 5 halike
  · exact ⟨halike, hsame⟩
  · rw [Compiled.isBad, hfault] at hgood
    cases hgood

end Compiler

end SheetFormula
