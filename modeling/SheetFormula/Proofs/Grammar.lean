import SheetFormula.Proofs.Derivation
import SheetFormula.Proofs.Scan

/-!
The grammar of formulas. It is said of phrases which operands an operator takes, by the operation at the
root of an operand and the sign that it may end in, and of terminals which tokens make them. The parser
accepts exactly the tokens of such a phrase, the phrase is unique, and its tree is what is read.
-/

set_option autoImplicit false

namespace SheetFormula

theorem Operator.priority_le_atomPriority (op : String) : priority op ≤ atomPriority := by
  unfold priority
  split <;> decide

namespace Phrase

/-- The last operation of the phrase that is not in parentheses has a sign before its operand. -/
def EndsInSign : Phrase → Prop
  | .sign _ _ => True
  | .marked d => d.EndsInSign
  | .operation _ _ b => b.EndsInSign
  | _ => False

/-- The phrases of the grammar. `RootOperator` looks at an operand that is an operation without
parentheses. -/
inductive Grammatical : Phrase → Prop
  | atom (text : String) (a : Atom) : Grammatical (.leaf text a)
  | group {d : Phrase} (inner : Grammatical d) : Grammatical (.group d)
  | marked {d : Phrase} (operand : Grammatical d) (tight : d.RootOperator fun _ => False)
    (bare : ∀ op e, d ≠ .suffix op e) : Grammatical (.marked d)
  | sign {op : String} {d : Phrase} (sign : op = "+" ∨ op = "-") (operand : Grammatical d)
    (tight : d.RootOperator fun op' => Operator.signPriority < Operator.priority op') :
    Grammatical (.sign op d)
  | percent {d : Phrase} (operand : Grammatical d) (tight : d.RootOperator fun _ => False)
    (ends : ¬ d.EndsInSign) : Grammatical (.suffix "%" d)
  | operation {op : String} {a b : Phrase} (binds : 0 < Operator.priority op) (binary : op ≠ "%")
    (left : Grammatical a) (right : Grammatical b)
    (leftTight : a.RootOperator fun op' => Operator.priority op ≤ Operator.priority op')
    (leftEnds : Operator.signPriority < Operator.priority op → ¬ a.EndsInSign)
    (rightTight : b.RootOperator fun op' => Operator.priority op < Operator.priority op') :
    Grammatical (.operation op a b)
  | call {function : String} {as : List Phrase}
    (arguments : ∀ a ∈ as, a ≠ .omitted → Grammatical a) (single : as ≠ [.omitted]) :
    Grammatical (.call function as)
  | array {rs : List (List Phrase)} (some : rs ≠ []) (rows : ∀ r ∈ rs, r ≠ [])
    (cells : ∀ r ∈ rs, ∀ c ∈ r, Grammatical c) : Grammatical (.array rs)

variable {d : Phrase}

theorem StaysAbove.rootOperator {bound : Nat} (h : d.StaysAbove bound) :
    d.RootOperator fun op => bound < Operator.priority op := by
  cases d with
  | operation op a b => exact h.1
  | _ => trivial

theorem not_endsInSign {next : Nat} (hnext : Operator.signPriority < next) (d : Phrase)
    (h : d.EndsBefore next) : ¬ d.EndsInSign := by
  cases d with
  | sign op d => exact absurd h.1 (Nat.not_le.mpr hnext)
  | marked d => exact not_endsInSign hnext d h.2
  | operation op a b => exact not_endsInSign hnext b h.2
  | _ => exact id

/-- A phrase ends before an operator if its root does and no sign is in the way. -/
theorem Grammatical.endsBefore (h : d.Grammatical) {next : Nat}
    (hnext : next ≤ Operator.atomPriority)
    (hroot : d.RootOperator fun op => next ≤ Operator.priority op)
    (hends : Operator.signPriority < next → ¬ d.EndsInSign) : d.EndsBefore next := by
  induction h with
  | marked operand tight bare ih => exact ⟨hnext, ih (tight.imp fun _ => False.elim) hends⟩
  | sign sign operand tight ih =>
    have hle : next ≤ Operator.signPriority := Nat.not_lt.mp fun hlt => hends hlt trivial
    exact ⟨hle, ih (tight.imp fun _ hop => hle.trans hop.le) fun hlt => absurd hle (Nat.not_le.mpr hlt)⟩
  | operation binds binary left right leftTight leftEnds rightTight ihleft ihright =>
    exact ⟨hroot, ihright (rightTight.imp fun _ hop => hroot.trans hop.le) hends⟩
  | _ => trivial

theorem rootOperator_false (h : d.Proper)
    (hroot : d.RootOperator fun op => Operator.priority "%" ≤ Operator.priority op) :
    d.RootOperator fun _ => False := by
  cases h with
  | operation binds binary left right before above =>
    exact absurd (Operator.priority_lt binary) (Nat.not_lt.mpr hroot)
  | _ => trivial

theorem Grammatical.proper (h : d.Grammatical) : d.Proper := by
  induction h with
  | atom text a => exact .leaf text a
  | group inner ih => exact .group ih
  | @marked d operand tight bare ih =>
    refine .marked ih ?_
    cases d with
    | operation op a b => exact tight.elim
    | suffix op e => exact absurd rfl (bare op e)
    | _ => trivial
  | sign sign operand tight ih =>
    exact .sign (by simpa [Operator.isSign] using sign) ih (ih.staysAbove (by decide) tight)
  | percent operand tight ends ih =>
    exact .suffix rfl ih (operand.endsBefore (by decide) (tight.imp fun _ => False.elim) fun _ => ends)
  | @operation op a b binds binary left right leftTight leftEnds rightTight ihleft ihright =>
    have hbinary : Operator.isSuffix op = false := by simpa [Operator.isSuffix] using binary
    exact .operation binds hbinary ihleft ihright
      (left.endsBefore (Operator.priority_le_atomPriority op) leftTight leftEnds)
      (ihright.staysAbove (Operator.priority_lt hbinary) rightTight)
  | call arguments single ih => exact .call ih single
  | array some rows cells ih => exact .array some rows ih

theorem Proper.grammatical (h : d.Proper) : d.Grammatical := by
  induction h with
  | leaf text a => exact .atom text a
  | group inner ih => exact .group ih
  | @marked d operand above ih =>
    have hle (op : String) : ¬ Operator.atomPriority < Operator.priority op :=
      Nat.not_lt.mpr (Operator.priority_le_atomPriority op)
    refine .marked ih (above.rootOperator.imp fun op hop => hle op hop) fun op e hd => ?_
    subst hd
    exact hle op above.1
  | sign sign operand above ih =>
    exact .sign (by simpa [Operator.isSign] using sign) ih above.rootOperator
  | @suffix op d suffix operand before ih =>
    obtain rfl : op = "%" := by simpa [Operator.isSuffix] using suffix
    exact .percent ih (rootOperator_false operand before.rootOperator)
      (not_endsInSign (by decide) d before)
  | operation binds binary left right before above ihleft ihright =>
    exact .operation binds (by simpa [Operator.isSuffix] using binary) ihleft ihright
      before.rootOperator (fun hlt => not_endsInSign hlt _ before) above.rootOperator
  | call arguments single ih => exact .call ih single
  | array some rows cells ih => exact .array some rows ih

end Phrase

/-! ### Tokens -/

namespace Terminal

/-- The tokens that make a terminal: most often one, two for a function name with its parenthesis, three
for a range between two references. -/
inductive MadeOf (locale : Locale) : Terminal → List Token → Prop
  | number {text : String} {value : Number} (reads : Literal.number? locale text = some value) :
    MadeOf locale (.atom "" (.number value)) [⟨.number, text⟩]
  | string (text : String) : MadeOf locale (.atom (Literal.unquote text) .string) [⟨.string, text⟩]
  | broken (text : String) : MadeOf locale (.atom "#REF" .reference) [⟨.invalidReference, text⟩]
  | reference (text : String) : MadeOf locale (.atom text .reference) [⟨.reference, text⟩]
  | range (left right : String) :
    MadeOf locale (.atom (left ++ ":" ++ right) .reference)
      [⟨.reference, left⟩, ⟨.operator, ":"⟩, ⟨.reference, right⟩]
  | truth {text : String} (spells : Text.upper text = "TRUE") :
    MadeOf locale (.atom "" (.boolean true)) [⟨.symbol, text⟩]
  | falsity {text : String} (spells : Text.upper text = "FALSE") :
    MadeOf locale (.atom "" (.boolean false)) [⟨.symbol, text⟩]
  | symbol {text : String} (noTruth : Text.upper text ≠ "TRUE")
    (noFalsity : Text.upper text ≠ "FALSE") : MadeOf locale (.atom text .symbol) [⟨.symbol, text⟩]
  | call {name : String} (names : Literal.isFunctionName name = true) (paren : String) :
    MadeOf locale ⟨.callStart, name, 0⟩ [⟨.symbol, name⟩, ⟨.leftParen, paren⟩]
  | operator (op : String) : MadeOf locale ⟨.operator, op, 0⟩ [⟨.operator, op⟩]
  | question (text : String) : MadeOf locale .question [⟨.debugger, text⟩]
  | opening (text : String) : MadeOf locale .opening [⟨.leftParen, text⟩]
  | closing (text : String) : MadeOf locale .closing [⟨.rightParen, text⟩]
  | openingBrace (text : String) : MadeOf locale .openingBrace [⟨.leftBrace, text⟩]
  | closingBrace (text : String) : MadeOf locale .closingBrace [⟨.rightBrace, text⟩]
  | comma (text : String) : MadeOf locale .comma [⟨.argSeparator, text⟩]
  | semicolon (text : String) : MadeOf locale .semicolon [⟨.rowSeparator, text⟩]

/-- The tokens make the terminals, one after the other. -/
inductive Spell (locale : Locale) : List Terminal → List Token → Prop
  | nil : Spell locale [] []
  | cons {t : Terminal} {terminals : List Terminal} {piece tokens : List Token}
    (made : MadeOf locale t piece) (rest : Spell locale terminals tokens) :
    Spell locale (t :: terminals) (piece ++ tokens)

variable {locale : Locale}

theorem isSimple_ofToken (t : Indexed) : (ofToken locale t).IsSimple := by
  intro e he
  unfold ofToken roleOf at he
  cases hkind : t.1.kind <;> simp only [hkind] at he
  case number =>
    cases hvalue : Literal.number? locale t.1.text <;> simp only [hvalue] at he
    · cases he
    · cases he
      exact ⟨_, _, _, rfl⟩
  case symbol =>
    cases he
    unfold nameLeaf
    split
    · exact ⟨_, _, _, rfl⟩
    · split <;> exact ⟨_, _, _, rfl⟩
  case string | reference | invalidReference =>
    cases he
    exact ⟨_, _, _, rfl⟩
  all_goals cases he

theorem isSimple_ofIndexed (tokens : List Indexed) :
    ∀ t ∈ ofIndexed locale tokens, t.IsSimple := by
  induction tokens using terminalInduction with
  | nil => exact List.forall_mem_nil _
  | call t u tokens h ih =>
    rw [ofIndexed_call h]
    exact List.forall_mem_cons.mpr ⟨fun _ => nofun, ih⟩
  | join t u v tokens h ih =>
    rw [ofIndexed_join h]
    refine List.forall_mem_cons.mpr ⟨fun e he => ?_, ih⟩
    cases he
    exact ⟨_, _, _, rfl⟩
  | alone t tokens h ih =>
    rw [ofIndexed_alone h]
    exact List.forall_mem_cons.mpr ⟨isSimple_ofToken t, ih⟩

/-- The terminal is one of the grammar. -/
def IsUsable (t : Terminal) : Prop :=
  t.role ≠ .unreadable ∧ t.role ≠ .stray

theorem madeOf_ofToken (t : Indexed) (h : (ofToken locale t).IsUsable) :
    MadeOf locale (ofToken locale t).plain [t.1] := by
  obtain ⟨⟨kind, text⟩, index⟩ := t
  obtain ⟨hread, hstray⟩ := h
  cases kind with
  | number =>
    cases hvalue : Literal.number? locale text with
    | none => exact absurd (by simp [ofToken, roleOf, hvalue]) hread
    | some value =>
      have hplain : (ofToken locale (⟨.number, text⟩, index)).plain = .atom "" (.number value) := by
        simp [ofToken, roleOf, hvalue, plain, leaf, Expr.unplaced_leaf, Label.unplaced, atom,
          Label.bare]
      rw [hplain]
      exact .number hvalue
  | symbol =>
    by_cases htrue : Text.upper text = "TRUE"
    · have hplain : (ofToken locale (⟨.symbol, text⟩, index)).plain = .atom "" (.boolean true) := by
        simp [ofToken, roleOf, nameLeaf, htrue, plain, leaf, Expr.unplaced_leaf, Label.unplaced,
          atom, Label.bare]
      rw [hplain]
      exact .truth htrue
    · by_cases hfalse : Text.upper text = "FALSE"
      · have hplain :
            (ofToken locale (⟨.symbol, text⟩, index)).plain = .atom "" (.boolean false) := by
          simp [ofToken, roleOf, nameLeaf, hfalse, plain, leaf, Expr.unplaced_leaf,
            Label.unplaced, atom, Label.bare]
        rw [hplain]
        exact .falsity hfalse
      · have hplain : (ofToken locale (⟨.symbol, text⟩, index)).plain = .atom text .symbol := by
          simp [ofToken, roleOf, nameLeaf, htrue, hfalse, plain, leaf, Expr.unplaced_leaf,
            Label.unplaced, atom, Label.bare]
        rw [hplain]
        exact .symbol htrue hfalse
  | string => exact .string text
  | reference => exact .reference text
  | invalidReference => exact .broken text
  | operator => exact .operator text
  | leftParen => exact .opening text
  | rightParen => exact .closing text
  | leftBrace => exact .openingBrace text
  | rightBrace => exact .closingBrace text
  | argSeparator => exact .comma text
  | rowSeparator => exact .semicolon text
  | debugger => exact .question text
  | space => exact absurd rfl hstray
  | unknown => exact absurd rfl hstray

/-- Tokens make the terminals that they are taken for. -/
theorem spell_ofIndexed (tokens : List Indexed) (h : ∀ t ∈ ofIndexed locale tokens, t.IsUsable) :
    Spell locale ((ofIndexed locale tokens).map plain) (tokens.map Prod.fst) := by
  induction tokens using terminalInduction with
  | nil => exact .nil
  | call t u tokens hcall ih =>
    rw [ofIndexed_call hcall] at h ⊢
    obtain ⟨⟨kind, name⟩, index⟩ := t
    obtain ⟨⟨kind', paren⟩, index'⟩ := u
    simp only [startsCall, Bool.and_eq_true, beq_iff_eq] at hcall
    obtain ⟨⟨rfl, rfl⟩, hname⟩ := hcall
    exact .cons (.call hname paren) (ih (List.forall_mem_cons.mp h).2)
  | join t u v tokens hjoin ih =>
    rw [ofIndexed_join hjoin] at h ⊢
    obtain ⟨⟨kind, left⟩, index⟩ := t
    obtain ⟨⟨kind', colon⟩, index'⟩ := u
    obtain ⟨⟨kind'', right⟩, index''⟩ := v
    simp only [joins, Token.isOperator, Bool.and_eq_true, beq_iff_eq] at hjoin
    obtain ⟨⟨rfl, rfl, rfl⟩, rfl⟩ := hjoin
    exact .cons (.range left right) (ih (List.forall_mem_cons.mp h).2)
  | alone t tokens halone ih =>
    rw [ofIndexed_alone halone] at h ⊢
    obtain ⟨ht, hrest⟩ := List.forall_mem_cons.mp h
    exact .cons (madeOf_ofToken t ht) (ih hrest)

variable {t : Terminal} {u : Token} {terminals : List Terminal} {piece tokens : List Token}

theorem MadeOf.shape (h : MadeOf locale t piece) :
    (∃ u, piece = [u]) ∨
      (∃ left right, t = .atom (left ++ ":" ++ right) .reference ∧
        piece = [⟨.reference, left⟩, ⟨.operator, ":"⟩, ⟨.reference, right⟩]) ∨
      ∃ name paren, Literal.isFunctionName name = true ∧ t = ⟨.callStart, name, 0⟩ ∧
        piece = [⟨.symbol, name⟩, ⟨.leftParen, paren⟩] := by
  cases h with
  | range left right => exact .inr (.inl ⟨left, right, rfl, rfl⟩)
  | call names paren => exact .inr (.inr ⟨_, paren, names, rfl, rfl⟩)
  | _ => exact .inl ⟨_, rfl⟩

theorem MadeOf.plain_ofToken (h : MadeOf locale t [u]) (index : Nat) :
    (ofToken locale (u, index)).plain = t := by
  cases h with
  | number reads =>
    simp [ofToken, roleOf, reads, plain, leaf, Expr.unplaced_leaf, Label.unplaced, atom, Label.bare]
  | truth spells | falsity spells =>
    simp [ofToken, roleOf, nameLeaf, spells, plain, leaf, Expr.unplaced_leaf, Label.unplaced, atom,
      Label.bare]
  | symbol noTruth noFalsity =>
    simp [ofToken, roleOf, nameLeaf, noTruth, noFalsity, plain, leaf, Expr.unplaced_leaf,
      Label.unplaced, atom, Label.bare]
  | _ => rfl

/-- The first token of a terminal that continues an operand neither opens a call nor joins references. -/
theorem MadeOf.of_continues (h : MadeOf locale t (u :: piece)) (ht : t.Continues)
    (hbinds : t.role = .operator → 0 < Operator.priority t.text) :
    u.kind ≠ .leftParen ∧ u.isOperator ":" = false := by
  cases h with
  | operator op =>
    refine ⟨by rintro ⟨⟩, ?_⟩
    have hne : op ≠ ":" := fun heq => absurd (hbinds rfl) (by rw [heq]; decide)
    simp [Token.isOperator, hne]
  | closing | closingBrace | comma | semicolon => exact ⟨by rintro ⟨⟩, rfl⟩
  | _ => exact ht.elim

theorem Spell.of_continues (h : Spell locale terminals (u :: tokens))
    (hhead : ∀ t ∈ terminals.head?, t.Continues)
    (hbinds : ∀ t ∈ terminals, t.role = .operator → 0 < Operator.priority t.text) :
    u.kind ≠ .leftParen ∧ u.isOperator ":" = false := by
  generalize htokens : u :: tokens = body at h
  cases h with
  | nil => cases htokens
  | @cons t terminals piece rest made spelt =>
    obtain ⟨v, more, rfl⟩ : ∃ v more, piece = v :: more := by
      rcases made.shape with ⟨v, rfl⟩ | ⟨_, _, -, rfl⟩ | ⟨_, _, -, -, rfl⟩ <;> exact ⟨_, _, rfl⟩
    cases htokens
    exact made.of_continues (hhead t rfl) (hbinds t List.mem_cons_self)

theorem MadeOf.alone (h : MadeOf locale t [u])
    (hnext : t.Ends → ∀ v rest, tokens = v :: rest →
      v.kind ≠ .leftParen ∧ v.isOperator ":" = false) : Alone u tokens := by
  constructor
  · rintro v rest rfl
    cases h with
    | truth | falsity | symbol => simp [startsCall, (hnext trivial v rest rfl).1]
    | _ => rfl
  · rintro v w rest rfl
    cases h with
    | reference => simp [joins, (hnext trivial v _ rfl).2]
    | _ => rfl

/-- Terminals that can follow each other are made of no other terminals' tokens. -/
theorem Spell.plain_ofIndexed (h : Spell locale terminals tokens)
    (hchain : terminals.IsChain Adjacent)
    (hbinds : ∀ t ∈ terminals, t.role = .operator → 0 < Operator.priority t.text)
    (indexed : List Indexed) (hindexed : indexed.map Prod.fst = tokens) :
    (ofIndexed locale indexed).map plain = terminals := by
  induction h generalizing indexed with
  | nil =>
    rw [List.map_eq_nil_iff.mp hindexed]
    rfl
  | @cons t terminals piece tokens made rest ih =>
    obtain ⟨hadjacent, htail⟩ := List.isChain_cons.mp hchain
    obtain ⟨-, hbindsTail⟩ := List.forall_mem_cons.mp hbinds
    rcases made.shape with ⟨u, rfl⟩ | ⟨left, right, rfl, rfl⟩ | ⟨name, paren, hname, rfl, rfl⟩
    · obtain ⟨⟨v, index⟩, indexed, rfl, rfl, rfl⟩ := List.map_eq_cons_iff.mp hindexed
      have halone : Alone v (indexed.map Prod.fst) := made.alone fun hends w more hmore =>
        (hmore ▸ rest).of_continues (fun t' ht' => (hadjacent t' ht').1 hends) hbindsTail
      rw [ofIndexed_alone halone, List.map_cons, made.plain_ofToken, ih htail hbindsTail indexed rfl]
    · simp only [List.cons_append, List.nil_append, List.map_eq_cons_iff] at hindexed
      obtain ⟨⟨v, i⟩, _, rfl, rfl, ⟨v', i'⟩, _, rfl, rfl, ⟨v'', i''⟩, indexed, rfl, rfl, rfl⟩ := hindexed
      rw [ofIndexed_join rfl, List.map_cons, ih htail hbindsTail indexed rfl]
      rfl
    · simp only [List.cons_append, List.nil_append, List.map_eq_cons_iff] at hindexed
      obtain ⟨⟨v, i⟩, _, rfl, rfl, ⟨v', i'⟩, indexed, rfl, rfl, rfl⟩ := hindexed
      rw [ofIndexed_call (by simp [startsCall, hname]), List.map_cons, ih htail hbindsTail indexed rfl]
      rfl

/-! ### The equals sign -/

/-- The tokens after an equals sign in front. -/
def afterEquals : List Indexed → List Indexed
  | t :: rest => if t.1.isOperator "=" then rest else t :: rest
  | [] => []

theorem dropEquals_ofIndexed (indexed : List Indexed) :
    Parser.dropEquals (ofIndexed locale indexed) = ofIndexed locale (afterEquals indexed) := by
  induction indexed using terminalInduction with
  | nil => rfl
  | call t u tokens h ih =>
    have hkind : t.1.isOperator "=" = false := by
      simp only [startsCall, Bool.and_eq_true, beq_iff_eq] at h
      simp [Token.isOperator, h.1.1]
    rw [afterEquals, if_neg (by simp [hkind]), ofIndexed_call h]
    rfl
  | join t u v tokens h ih =>
    have hkind : t.1.isOperator "=" = false := by
      simp only [joins, Bool.and_eq_true, beq_iff_eq] at h
      simp [Token.isOperator, h.1.1]
    rw [afterEquals, if_neg (by simp [hkind]), ofIndexed_join h]
    rfl
  | alone t tokens h ih =>
    rw [ofIndexed_alone h, afterEquals]
    obtain ⟨⟨kind, text⟩, index⟩ := t
    split
    · rename_i heq
      simp only [Token.isOperator, Bool.and_eq_true, beq_iff_eq] at heq
      obtain ⟨rfl, rfl⟩ := heq
      rfl
    · rename_i hne
      rw [ofIndexed_alone h, Parser.dropEquals]
      cases kind with
      | operator =>
        have htext : text ≠ "=" := by simpa [Token.isOperator] using hne
        simp [ofToken, roleOf, htext]
      | number => cases hvalue : Literal.number? locale text <;> simp [ofToken, roleOf, hvalue]
      | _ => rfl

end Terminal

namespace Phrase

variable {d : Phrase}

/-- The terminals of a phrase: an operand is a leaf, a bracket has its usual spelling, an operator
binds. -/
structure IsPart (t : Terminal) : Prop where
  simple : t.IsSimple
  plain : t.plain = t
  binds : t.role = .operator → 0 < Operator.priority t.text

theorem isPart_atom (text : String) (a : Atom) : IsPart (.atom text a) where
  simple := by
    intro e he
    cases he
    exact ⟨text, _, a, rfl⟩
  plain := by simp [Terminal.atom, Terminal.plain, Expr.unplaced_leaf, Label.unplaced, Label.bare]
  binds := nofun

theorem isPart_operator {op : String} (h : 0 < Operator.priority op) :
    IsPart ⟨.operator, op, 0⟩ :=
  ⟨fun _ => nofun, rfl, fun _ => h⟩

/-- Brackets, separators and marks have the usual spelling. -/
theorem isPart_punctuation {t : Terminal}
    (h : t ∈ [.opening, .closing, .openingBrace, .closingBrace, .comma, .semicolon, .question]) :
    IsPart t := by
  simp only [List.mem_cons, List.not_mem_nil, or_false] at h
  rcases h with rfl | rfl | rfl | rfl | rfl | rfl | rfl <;>
    exact ⟨by rintro _ ⟨⟩, rfl, by rintro ⟨⟩⟩

theorem isPart_callStart (function : String) : IsPart ⟨.callStart, function, 0⟩ :=
  ⟨by rintro _ ⟨⟩, rfl, by rintro ⟨⟩⟩

theorem forall_mem_intercalate {α : Type} {p : α → Prop} {separator : α} (hseparator : p separator)
    (ls : List (List α)) (h : ∀ l ∈ ls, ∀ a ∈ l, p a) : ∀ a ∈ [separator].intercalate ls, p a := by
  induction ls with
  | nil => exact List.forall_mem_nil p
  | cons l ls ih =>
    obtain ⟨hl, hls⟩ := List.forall_mem_cons.mp h
    cases ls with
    | nil => simpa using hl
    | cons m ls =>
      rw [List.intercalate_cons_cons, List.append_assoc]
      exact List.forall_mem_append.mpr ⟨hl, List.forall_mem_cons.mpr ⟨hseparator, ih hls⟩⟩

theorem Proper.isPart (h : d.Proper) : ∀ t ∈ d.yield, IsPart t := by
  induction h with
  | leaf text a => exact List.forall_mem_singleton.mpr (isPart_atom text a)
  | group inner ih =>
    rw [yield]
    exact List.forall_mem_cons.mpr ⟨isPart_punctuation (by simp),
      Parser.forall_mem_append_singleton ih (isPart_punctuation (by simp))⟩
  | marked operand above ih =>
    rw [yield]
    exact List.forall_mem_cons.mpr ⟨isPart_punctuation (by simp), ih⟩
  | sign sign operand above ih =>
    rw [yield]
    exact List.forall_mem_cons.mpr
      ⟨isPart_operator (Operator.priority_pos_of_isSign sign), ih⟩
  | suffix suffix operand before ih =>
    rw [yield]
    exact Parser.forall_mem_append_singleton ih
      (isPart_operator (Operator.priority_pos_of_isSuffix suffix))
  | operation binds binary left right before above ihleft ihright =>
    rw [yield]
    exact List.forall_mem_append.mpr
      ⟨ihleft, List.forall_mem_cons.mpr ⟨isPart_operator binds, ihright⟩⟩
  | @call function as arguments single ih =>
    rw [yield, yields_eq_map]
    refine List.forall_mem_cons.mpr ⟨isPart_callStart function, Parser.forall_mem_append_singleton
      (forall_mem_intercalate (isPart_punctuation (by simp)) _ ?_) (isPart_punctuation (by simp))⟩
    refine List.forall_mem_map.mpr fun a ha => ?_
    by_cases homitted : a = .omitted
    · subst homitted
      exact List.forall_mem_nil _
    · exact ih a ha homitted
  | @array rs some rows cells ih =>
    rw [yield, yieldRows_eq_map]
    refine List.forall_mem_cons.mpr ⟨isPart_punctuation (by simp),
      Parser.forall_mem_append_singleton
        (forall_mem_intercalate (isPart_punctuation (by simp)) _ ?_) (isPart_punctuation (by simp))⟩
    refine List.forall_mem_map.mpr fun r hr =>
      forall_mem_intercalate (isPart_punctuation (by simp)) _ ?_
    exact List.forall_mem_map.mpr (ih r hr)

theorem Proper.map_plain_yield (h : d.Proper) : d.yield.map Terminal.plain = d.yield := by
  have hid : d.yield.map Terminal.plain = d.yield.map id :=
    List.map_congr_left fun t ht => (h.isPart t ht).plain
  rw [hid, List.map_id]

/-- The terminals of a proper phrase can follow each other, and the first begins an operand. -/
theorem Proper.isChain_yield (h : d.Proper) :
    d.yield.IsChain Terminal.Adjacent ∧ ∀ t ∈ d.yield.head?, t.Begins := by
  obtain ⟨root, hrun, -⟩ :=
    Draft.run_of_yield h (fun t ht => (h.isPart t ht).simple) h.map_plain_yield 0
  obtain ⟨left, frames, hreaches, -⟩ := Parser.reaches_of_run hrun
  exact ⟨hreaches.isChain.1, fun t ht => (hreaches.isChain.2 t ht).2 id⟩

end Phrase

/-! ### Acceptance -/

/-- The tokens of a formula without spaces and without an equals sign in front. -/
def Token.body (tokens : List Token) : List Token :=
  match unspaced tokens with
  | t :: rest => if t.isOperator "=" then rest else t :: rest
  | [] => []

/-- The tokens of a formula make the terminals of a phrase of the grammar. -/
structure Phrase.Derives (locale : Locale) (d : Phrase) (tokens : List Token) : Prop where
  grammatical : d.Grammatical
  spelt : Terminal.Spell locale d.yield (Token.body tokens)

namespace Terminal

variable {locale : Locale} {tokens : List Token}

theorem map_fst_afterEquals (tokens : List Token) :
    (afterEquals (significant tokens)).map Prod.fst = Token.body tokens := by
  rw [Token.body, ← Literals.map_fst_significant]
  cases significant tokens with
  | nil => rfl
  | cons t rest =>
    rw [afterEquals, List.map_cons]
    split <;> simp_all

end Terminal

namespace Phrase

variable {locale : Locale} {tokens : List Token} {d : Phrase}

theorem exists_derives {root : Expr} (h : Expr.ofTokens ⟨locale, none⟩ tokens = .ok root) :
    ∃ d : Phrase, d.Derives locale tokens ∧ root.unplaced = d.tree := by
  have hrun := Parser.run_of_ofTokens h
  rw [Terminal.ofTokens, Terminal.dropEquals_ofIndexed] at hrun
  obtain ⟨d, hproper, hyield, htree⟩ :=
    Draft.exists_proper_of_run (Terminal.isSimple_ofIndexed _) hrun
  obtain ⟨left, frames, hreaches, -⟩ := Parser.reaches_of_run hrun
  have husable : ∀ t ∈ Terminal.ofIndexed locale
      (Terminal.afterEquals (Terminal.significant tokens)), t.IsUsable := by
    intro t ht
    refine ⟨hreaches.readable t ht, fun hrole => ?_⟩
    have hplace := hreaches.begins_or_continues t ht
    simp [Terminal.Begins, Terminal.Continues, hrole] at hplace
  refine ⟨d, ⟨hproper.grammatical, ?_⟩, htree⟩
  rw [hyield, ← Terminal.map_fst_afterEquals]
  exact Terminal.spell_ofIndexed _ husable

/-- The terminals that the parser takes are those of the phrase. -/
theorem Derives.map_plain_ofIndexed (h : d.Derives locale tokens) :
    (Terminal.ofIndexed locale (Terminal.afterEquals (Terminal.significant tokens))).map
      Terminal.plain = d.yield := by
  have hproper := h.grammatical.proper
  exact h.spelt.plain_ofIndexed hproper.isChain_yield.1 (fun t ht => (hproper.isPart t ht).binds) _
    (Terminal.map_fst_afterEquals tokens)

theorem Derives.exists_ofTokens (h : d.Derives locale tokens) :
    ∃ root, Expr.ofTokens ⟨locale, none⟩ tokens = .ok root ∧ root.unplaced = d.tree := by
  obtain ⟨root, hrun, htree⟩ := Draft.run_of_yield h.grammatical.proper
    (Terminal.isSimple_ofIndexed _) h.map_plain_ofIndexed tokens.length
  refine ⟨root, ?_, htree⟩
  unfold Expr.ofTokens
  rw [Terminal.ofTokens, Terminal.dropEquals_ofIndexed]
  split
  · rename_i hnil
    rw [hnil] at hrun
    cases hrun
  · exact hrun

theorem Derives.unique {d' : Phrase} (h : d.Derives locale tokens) (h' : d'.Derives locale tokens) :
    d = d' :=
  Draft.eq_of_yield_eq h.grammatical.proper h'.grammatical.proper
    (h.map_plain_ofIndexed.symm.trans h'.map_plain_ofIndexed)

/-- Without a limit on nesting, the parser accepts exactly the tokens of the grammar: there is a phrase
that derives them, there is but one, and its tree is what is read. -/
theorem ofTokens_ok_iff_derives (locale : Locale) (tokens : List Token) :
    ((∃ root, Expr.ofTokens ⟨locale, none⟩ tokens = .ok root) ↔
        ∃ d : Phrase, d.Derives locale tokens) ∧
      (∀ d d' : Phrase, d.Derives locale tokens → d'.Derives locale tokens → d = d') ∧
      ∀ (root : Expr) (d : Phrase), Expr.ofTokens ⟨locale, none⟩ tokens = .ok root →
        d.Derives locale tokens → root.unplaced = d.tree := by
  refine ⟨⟨fun ⟨root, h⟩ => ?_, fun ⟨d, h⟩ => ?_⟩, fun d d' h h' => h.unique h',
    fun root d hroot h => ?_⟩
  · obtain ⟨d, hd, -⟩ := exists_derives h
    exact ⟨d, hd⟩
  · obtain ⟨root, hroot, -⟩ := h.exists_ofTokens
    exact ⟨root, hroot⟩
  · obtain ⟨d', hd', htree⟩ := exists_derives hroot
    rw [htree, h.unique hd']

/-- Of `=-A1 ^2%`, where the sign takes the power and the power takes the percent sign. -/
theorem signed_power_derives :
    let tokens : List Token :=
      [⟨.operator, "="⟩, ⟨.operator, "-"⟩, ⟨.reference, "A1"⟩, ⟨.space, " "⟩, ⟨.operator, "^"⟩,
        ⟨.number, "2"⟩, ⟨.operator, "%"⟩]
    (∃ root, Expr.ofTokens ⟨.canonical, none⟩ tokens = .ok root) ∧
      ∃ d : Phrase, d.Derives .canonical tokens ∧
        ∀ d' : Phrase, d'.Derives .canonical tokens → d' = d := by
  intro tokens
  obtain ⟨hiff, hunique, -⟩ := ofTokens_ok_iff_derives .canonical tokens
  have haccepted : ∃ root, Expr.ofTokens ⟨.canonical, none⟩ tokens = .ok root := ⟨_, rfl⟩
  obtain ⟨d, hd⟩ := hiff.mp haccepted
  exact ⟨haccepted, d, hd, fun d' hd' => hunique d' d hd' hd⟩

end Phrase

end SheetFormula
