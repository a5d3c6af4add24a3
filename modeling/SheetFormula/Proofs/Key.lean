import SheetFormula.Proofs.Fusion
import SheetFormula.Proofs.Scan
import SheetFormula.Proofs.Structure
import SheetFormula.Proofs.Words

/-!
The key of a formula. It is made of one part for each terminal: a mark for a literal, a name, a call with
its parenthesis, or a token of a fixed spelling. Cut into tokens again, the key of a formula that can be
read falls apart into just these parts, so that it determines the structure of the formula.
-/

set_option autoImplicit false

namespace SheetFormula

/-- The literals that a key tells apart. -/
inductive KeyMark where
  | number
  | string
  | cell
  | range
deriving DecidableEq

/-- The letter of a mark. -/
def KeyMark.letter : KeyMark → String
  | .number => "N"
  | .string => "S"
  | .cell => "C"
  | .range => "R"

/-- What a terminal leaves in the key. -/
inductive KeyPart where
  | literal (mark : KeyMark)
  | name (text : String)
  | call (function : String)
  | fixed (token : Token)
deriving DecidableEq

namespace KeyPart

/-- A name by itself is cut from a text as a reference where it spells a cell. -/
def nameToken (text : String) : Token :=
  ⟨if Address.onSheet Address.isCell text.toList then .reference else .symbol, text⟩

/-- The tokens into which a part is cut. -/
def tokens : KeyPart → List Token
  | .literal mark => [⟨.unknown, "|"⟩, ⟨.symbol, mark.letter⟩, ⟨.unknown, "|"⟩]
  | .name text => [nameToken text]
  | .call function => [⟨.symbol, function⟩, ⟨.leftParen, "("⟩]
  | .fixed token => [token]

/-- The part as the key spells it. -/
def text (p : KeyPart) : String :=
  Token.spell p.tokens

theorem text_literal (mark : KeyMark) : (literal mark).text = "|" ++ mark.letter ++ "|" := by
  cases mark <;> rfl

theorem text_name (text : String) : (KeyPart.name text).text = text := by
  simp [KeyPart.text, tokens, Token.spell, nameToken]

theorem text_call (function : String) : (call function).text = function ++ "(" := by
  simp [text, tokens, Token.spell]

theorem text_fixed (token : Token) : (fixed token).text = token.text := by
  simp [text, tokens, Token.spell]

end KeyPart

namespace Terminal

/-- The part of the key that a leaf leaves. -/
def leafPart (text : String) : Expr → KeyPart
  | .leaf _ (.number _) => .literal .number
  | .leaf _ .string => .literal .string
  | .leaf l .reference => .literal (if Expr.namesRange l.text then .range else .cell)
  | _ => .name text

/-- The part of the key that a terminal leaves. -/
def keyPart (t : Terminal) : KeyPart :=
  match t.role with
  | .operand leaf => leafPart t.text leaf
  | .unreadable => .literal .number
  | .callStart => .call t.text
  | .marker => .fixed ⟨.debugger, t.text⟩
  | .operator => .fixed ⟨.operator, t.text⟩
  | .leftParen => .fixed ⟨.leftParen, t.text⟩
  | .rightParen => .fixed ⟨.rightParen, t.text⟩
  | .leftBrace => .fixed ⟨.leftBrace, t.text⟩
  | .rightBrace => .fixed ⟨.rightBrace, t.text⟩
  | .argSeparator => .fixed ⟨.argSeparator, t.text⟩
  | .rowSeparator => .fixed ⟨.rowSeparator, t.text⟩
  | .stray => .fixed ⟨.unknown, t.text⟩

end Terminal

namespace Literals

theorem key_addKey (l : Literals) (text : String) : (l.addKey text).key = text ++ l.key := rfl

theorem key_addSymbol (l : Literals) (text : String) (called : Bool) :
    (l.addSymbol text called).key = text ++ l.key := by
  simp only [addSymbol]
  split <;> rfl

theorem key_addNumber (l : Literals) (locale : Locale) (text : String) :
    (l.addNumber locale text).key = "|N|" ++ l.key := by
  unfold addNumber
  split <;> rfl

theorem key_addReference (l : Literals) (text : String) :
    (l.addReference text).key =
      (KeyPart.literal (if Expr.namesRange text then .range else .cell)).text ++ l.key := by
  simp only [addReference, key_addKey]
  split <;> rfl

/-- A token adds the part of its terminal to the key. -/
theorem key_addToken {locale : Locale} {t : Token} {l : Literals} (index : Nat)
    (hspace : t.kind ≠ .space) :
    (addToken locale t l).key = (Terminal.ofToken locale (t, index)).keyPart.text ++ l.key := by
  unfold addToken Terminal.keyPart Terminal.ofToken Terminal.roleOf
  cases hkind : t.kind with
  | space => exact absurd hkind hspace
  | number =>
    rw [key_addNumber]
    cases Literal.number? locale t.text <;> rfl
  | string => rfl
  | symbol =>
    rw [key_addSymbol]
    simp only [Terminal.nameLeaf]
    split
    · exact congrArg (· ++ l.key) (KeyPart.text_name t.text).symm
    · split <;> exact congrArg (· ++ l.key) (KeyPart.text_name t.text).symm
  | reference => exact key_addReference ..
  | invalidReference =>
    have hcell : Expr.namesRange "#REF" = false := by decide
    change "|C|" ++ l.key =
      (KeyPart.literal (if Expr.namesRange "#REF" then .range else .cell)).text ++ l.key
    rw [hcell]
    rfl
  | _ => exact congrArg (· ++ l.key) (KeyPart.text_fixed ⟨_, t.text⟩).symm

/-- The key of tokens without spaces is put together from the parts of their terminals. -/
theorem key_ofIndexed {locale : Locale} (tokens : List Terminal.Indexed)
    (hspaces : ∀ t ∈ tokens, t.1.kind ≠ .space)
    (hparen : ∀ t ∈ tokens, t.1.kind = .leftParen → t.1.text = "(") :
    (ofTokens locale (tokens.map Prod.fst)).key =
      String.join ((Terminal.ofIndexed locale tokens).map fun t => t.keyPart.text) := by
  induction tokens using Terminal.terminalInduction with
  | nil => rw [List.map_nil, ofTokens]; rfl
  | call t u tokens h ih =>
    have hrest := ih (fun v hv => hspaces v (by simp [hv])) (fun v hv => hparen v (by simp [hv]))
    have hu : u.1.text = "(" := by
      simp only [Terminal.startsCall, Bool.and_eq_true, beq_iff_eq] at h
      exact hparen u (by simp) h.1.2
    rw [Terminal.ofIndexed_call h, List.map_cons, List.map_cons, ofTokens_call h, key_addKey,
      key_addKey, hrest, hu, List.map_cons, String.join_cons]
    simp [Terminal.keyPart, KeyPart.text_call, String.append_assoc]
  | join t u v tokens h ih =>
    have hrest := ih (fun w hw => hspaces w (by simp [hw])) (fun w hw => hparen w (by simp [hw]))
    rw [Terminal.ofIndexed_join h, List.map_cons, List.map_cons, List.map_cons, ofTokens_join h,
      key_addReference, hrest, List.map_cons, String.join_cons]
    rfl
  | alone t tokens h ih =>
    obtain ⟨hspace, hspaces⟩ := List.forall_mem_cons.mp hspaces
    have hrest := ih hspaces (List.forall_mem_cons.mp hparen).2
    rw [Terminal.ofIndexed_alone h, List.map_cons, ofTokens_alone h (by simpa using hspaces),
      key_addToken t.2 hspace, hrest, List.map_cons, String.join_cons]

end Literals

/-! ### Spelling -/

namespace KeyPart

open Lexer (NameText EndsName Stops)

/-- The part is spelt as tokens are. -/
inductive Legible : KeyPart → Prop
  | literal (mark : KeyMark) : Legible (.literal mark)
  | name {text : String} (name : NameText text.toList) : Legible (.name text)
  | call {function : String} (name : NameText function.toList) : Legible (.call function)
  | operator {text : String} (mem : text.toList ∈ Lexer.operators) :
    Legible (.fixed ⟨.operator, text⟩)
  | punctuation {c : Char} {kind : Token.Kind} (mem : (c, kind) ∈ Lexer.punctuation)
    (known : kind ≠ .unknown) : Legible (.fixed ⟨kind, String.ofList [c]⟩)

/-- What follows the part does not continue it. -/
structure Fits (p : KeyPart) (rest : List Char) : Prop where
  name : ∀ text, p = .name text → EndsName rest ∧ rest.head? ≠ some '('
  operator : ∀ text, p = .fixed ⟨.operator, text⟩ → text.toList ∈ [['<'], ['>']] →
    Stops (fun c => c == '=' || c == '>') rest

theorem nameText_letter (mark : KeyMark) : NameText mark.letter.toList := by
  cases mark <;> exact .plain (by decide) (List.all_eq_true.mp (by decide +kernel)) (by decide)

theorem not_isCell_letter (mark : KeyMark) : ¬ Lexer.IsCell mark.letter.toList := by
  cases mark <;> (rw [Lexer.IsCell]; decide)

/-- Before what does not continue it, a part is cut into its tokens. -/
theorem Legible.cuts {x : Lexer} (hx : x.IsCanonical) {p : KeyPart} {rest : List Char}
    {tokens : List Token} (h : p.Legible) (hfits : p.Fits rest) (hcuts : x.Cuts tokens rest) :
    x.Cuts (p.tokens ++ tokens) (p.text.toList ++ rest) := by
  cases h with
  | literal mark =>
    have hbar := hcuts.punctuation hx '|' .unknown (by decide)
    have hletter := Lexer.Cuts.cons (Lexer.lexeme_symbol hx (nameText_letter mark)
      (Lexer.endsName_cons (c := '|') (by decide) (by decide) rest)
      fun hcell => absurd hcell (not_isCell_letter mark)) hbar
    rw [String.ofList_toList] at hletter
    simpa [text_literal, KeyPart.tokens] using hletter.punctuation hx '|' .unknown (by decide)
  | @name text hname =>
    obtain ⟨hends, hparen⟩ := hfits.name text rfl
    rw [text_name, KeyPart.tokens, nameToken, List.singleton_append]
    have hlexeme : x.Lexeme (if Address.onSheet Address.isCell text.toList then .reference else .symbol)
        text.toList rest := by
      split
      · exact Lexer.lexeme_reference hx hname hends ‹_› hparen
      · exact Lexer.lexeme_symbol hx hname hends fun hcell => absurd hcell ‹_›
    have hcons := Lexer.Cuts.cons hlexeme hcuts
    rwa [String.ofList_toList] at hcons
  | @call function hname =>
    have hparen := hcuts.punctuation hx '(' .leftParen (by decide)
    have hcons := Lexer.Cuts.cons (Lexer.lexeme_symbol hx hname
      (Lexer.endsName_cons (c := '(') (by decide) (by decide) rest) fun _ => rfl) hparen
    rw [String.ofList_toList] at hcons
    simpa [text_call, KeyPart.tokens] using hcons
  | @operator text mem =>
    have hcons := Lexer.Cuts.cons (Lexer.lexeme_of_operator hx mem (hfits.operator text rfl)) hcuts
    rw [String.ofList_toList] at hcons
    rw [text_fixed]
    exact hcons
  | @punctuation c kind mem known =>
    rw [text_fixed, String.toList_ofList]
    exact hcuts.punctuation hx c kind mem

/-- The structure of the terminals that leave this part. -/
def terminal : KeyPart → Terminal
  | .literal .number => ⟨.operand (.leaf ⟨"", false, ⟨0, 0⟩⟩ (.number .zero)), "", 0⟩
  | .literal .string => ⟨.operand (.leaf ⟨"", false, ⟨0, 0⟩⟩ .string), "", 0⟩
  | .literal .cell => ⟨.operand (.leaf ⟨"", false, ⟨0, 0⟩⟩ .reference), "", 0⟩
  | .literal .range => ⟨.operand (.leaf ⟨":", false, ⟨0, 0⟩⟩ .reference), "", 0⟩
  | .name text => ⟨.operand (Terminal.nameLeaf text 0).structure, "", 0⟩
  | .call function => ⟨.callStart, function, 0⟩
  | .fixed u => ⟨Terminal.roleOf .canonical u 0, u.text, 0⟩

/-! ### Taking a key apart -/

/-- A name by itself is not followed by an opening parenthesis. -/
def Apart (p q : KeyPart) : Prop :=
  ∀ text, p = .name text → ∀ u, q = .fixed u → u.kind ≠ .leftParen

theorem kind_nameToken (text : String) :
    (nameToken text).kind = .symbol ∨ (nameToken text).kind = .reference := by
  unfold nameToken
  split
  · exact .inr rfl
  · exact .inl rfl

/-- Tokens of a fixed spelling are neither names nor marks. -/
theorem Legible.kind_ne {u : Token} (h : (KeyPart.fixed u).Legible) :
    u.kind ≠ .symbol ∧ u.kind ≠ .reference ∧ u.kind ≠ .unknown := by
  cases h with
  | operator mem => exact ⟨nofun, nofun, nofun⟩
  | @punctuation c kind mem known =>
    have hkinds : ∀ p ∈ Lexer.punctuation, p.2 ≠ .symbol ∧ p.2 ≠ .reference := by decide
    exact ⟨(hkinds _ mem).1, (hkinds _ mem).2, known⟩

/-- Only an opening parenthesis begins with one. -/
theorem eq_fixed_of_leftParen {p : KeyPart} {u : Token} {tokens rest : List Token}
    (h : p.tokens ++ tokens = u :: rest) (hu : u.kind = .leftParen) : p = .fixed u := by
  cases p with
  | literal mark =>
    obtain ⟨rfl, -⟩ := List.cons.inj h
    cases hu
  | name text =>
    obtain ⟨rfl, -⟩ := List.cons.inj h
    rcases kind_nameToken text with hkind | hkind <;> (rw [hu] at hkind; cases hkind)
  | call function =>
    obtain ⟨rfl, -⟩ := List.cons.inj h
    cases hu
  | fixed v =>
    obtain ⟨rfl, -⟩ := List.cons.inj h
    rfl

theorem letter_injective {mark mark' : KeyMark} (h : mark.letter = mark'.letter) :
    mark = mark' := by
  cases mark <;> cases mark' <;> first | rfl | (exact absurd h (by decide))

/-- The four sorts of parts in some order. -/
def sort : KeyPart → Nat
  | .literal _ => 0
  | .name _ => 1
  | .call _ => 2
  | .fixed _ => 3

/-- Parts of different sorts begin with different tokens; only a name and a call are told apart by what
follows. -/
theorem not_sort_lt {p q : KeyPart} {ps : List KeyPart} {rest : List Token} (hq : q.Legible)
    (hchain : (p :: ps).IsChain Apart)
    (h : p.tokens ++ ps.flatMap tokens = q.tokens ++ rest) : ¬ p.sort < q.sort := by
  intro hlt
  cases p with
  | literal mark =>
    cases q with
    | literal mark' => exact absurd hlt (Nat.lt_irrefl _)
    | name text =>
      have hkind := kind_nameToken text
      rw [← (List.cons.inj h).1] at hkind
      simp at hkind
    | call function => exact absurd (congrArg Token.kind (List.cons.inj h).1) nofun
    | fixed u => exact hq.kind_ne.2.2 (congrArg Token.kind (List.cons.inj h).1).symm
  | name text =>
    cases q with
    | literal mark => exact absurd hlt (Nat.not_lt_zero _)
    | name text' => exact absurd hlt (Nat.lt_irrefl _)
    | call function =>
      obtain ⟨-, h⟩ := List.cons.inj h
      cases ps with
      | nil => cases h
      | cons q ps =>
        rw [List.flatMap_cons] at h
        exact (List.isChain_cons_cons.mp hchain).1 text rfl _ (eq_fixed_of_leftParen h rfl) rfl
    | fixed u =>
      obtain ⟨rfl, -⟩ := List.cons.inj h
      rcases kind_nameToken text with hkind | hkind
      · exact hq.kind_ne.1 hkind
      · exact hq.kind_ne.2.1 hkind
  | call function =>
    cases q with
    | fixed u => exact hq.kind_ne.1 (congrArg Token.kind (List.cons.inj h).1).symm
    | _ => simp [sort] at hlt
  | fixed u => cases q <;> simp [sort] at hlt

/-- The tokens of a key determine its parts. -/
theorem eq_of_tokens_eq {ps qs : List KeyPart} (hps : ∀ p ∈ ps, p.Legible)
    (hqs : ∀ q ∈ qs, q.Legible) (hpchain : ps.IsChain Apart) (hqchain : qs.IsChain Apart)
    (h : ps.flatMap tokens = qs.flatMap tokens) : ps = qs := by
  induction ps generalizing qs with
  | nil =>
    cases qs with
    | nil => rfl
    | cons q qs => cases q <;> cases h
  | cons p ps ih =>
    cases qs with
    | nil => cases p <;> cases h
    | cons q qs =>
      obtain ⟨hp, hps⟩ := List.forall_mem_cons.mp hps
      obtain ⟨hq, hqs⟩ := List.forall_mem_cons.mp hqs
      have hrest := ih hps hqs hpchain.tail hqchain.tail
      rw [List.flatMap_cons, List.flatMap_cons] at h
      have hsort : p.sort = q.sort :=
        Nat.le_antisymm (Nat.not_lt.mp (not_sort_lt hp hqchain h.symm))
          (Nat.not_lt.mp (not_sort_lt hq hpchain h))
      cases p with
      | literal mark =>
        cases q with
        | literal mark' =>
          simp only [tokens, List.cons_append, List.nil_append, List.cons.injEq, Token.mk.injEq,
            true_and] at h
          rw [letter_injective h.1, hrest h.2]
        | _ => cases hsort
      | name text =>
        cases q with
        | name text' =>
          obtain ⟨htext, h⟩ := List.cons.inj h
          rw [show text = text' from congrArg Token.text htext, hrest h]
        | _ => cases hsort
      | call function =>
        cases q with
        | call function' =>
          obtain ⟨htext, h⟩ := List.cons.inj h
          rw [show function = function' from congrArg Token.text htext,
            hrest (List.cons.inj h).2]
        | _ => cases hsort
      | fixed u =>
        cases q with
        | fixed v =>
          obtain ⟨hu, h⟩ := List.cons.inj h
          rw [hu, hrest h]
        | _ => cases hsort

end KeyPart

namespace Terminal

/-- The terminal leaves a legible part that gives its structure back. -/
def IsKeyed (t : Terminal) : Prop :=
  t.keyPart.Legible ∧ t.recast .structural = t.keyPart.terminal

theorem structure_nameLeaf (text : String) (index : Nat) :
    (nameLeaf text index).structure = (nameLeaf text 0).structure := by
  unfold nameLeaf
  split
  · rfl
  · split <;> rfl

theorem isKeyed_reference (text shown : String) (start stop index : Nat) :
    IsKeyed ⟨.operand (leaf text .reference start stop), shown, index⟩ := by
  refine ⟨.literal _, ?_⟩
  simp only [recast, leaf, Expr.recast_leaf, Casting.structural, keyPart, leafPart]
  split <;> rfl

theorem leafPart_nameLeaf (text : String) (index : Nat) :
    leafPart text (nameLeaf text index) = .name text := by
  unfold nameLeaf
  split
  · rfl
  · split <;> rfl

theorem isKeyed_name {text : String} (h : Lexer.NameText text.toList) (index : Nat) :
    IsKeyed ⟨.operand (nameLeaf text index), text, index⟩ := by
  have hpart : keyPart ⟨.operand (nameLeaf text index), text, index⟩ = .name text :=
    leafPart_nameLeaf text index
  rw [IsKeyed, hpart, KeyPart.terminal, ← structure_nameLeaf text index]
  exact ⟨.name h, rfl⟩

/-- A token of a formula that stands by itself gives its structure back. -/
theorem isKeyed_ofToken {t : Indexed}
    (hspelt : t.1.kind ≠ .reference → ∃ rest, Lexer.Spelt t.1.kind t.1.text.toList rest)
    (hrole : (ofToken .canonical t).Begins ∨ (ofToken .canonical t).Continues) :
    (ofToken .canonical t).IsKeyed := by
  obtain ⟨⟨kind, text⟩, index⟩ := t
  have hpunctuation {c : Char} {kind : Token.Kind} (htext : text.toList = [c])
      (hc : (c, kind) ∈ Lexer.punctuation) (hkind : kind ≠ .unknown) :
      (KeyPart.fixed ⟨kind, text⟩).Legible := by
    rw [← String.ofList_toList (s := text), htext]
    exact .punctuation hc hkind
  cases kind with
  | reference => exact isKeyed_reference ..
  | invalidReference => exact isKeyed_reference ..
  | string => exact ⟨.literal _, rfl⟩
  | space => simp [ofToken, roleOf, Begins, Continues] at hrole
  | unknown => simp [ofToken, roleOf, Begins, Continues] at hrole
  | number =>
    unfold ofToken roleOf at hrole ⊢
    cases hnumber : Literal.number? .canonical text with
    | none => simp [hnumber, Begins, Continues] at hrole
    | some value => exact ⟨.literal _, rfl⟩
  | symbol =>
    obtain ⟨rest, hspelt⟩ := hspelt (by rintro ⟨⟩)
    cases hspelt with
    | symbol name called => exact isKeyed_name name index
  | operator =>
    obtain ⟨rest, hspelt⟩ := hspelt (by rintro ⟨⟩)
    cases hspelt with
    | operator mem => exact ⟨.operator mem, rfl⟩
  | _ =>
    obtain ⟨rest, hspelt⟩ := hspelt (by rintro ⟨⟩)
    generalize htext : text.toList = s at hspelt
    cases hspelt
    exact ⟨hpunctuation htext (by decide) (by decide), rfl⟩

theorem isKeyed_ofIndexed (tokens : List Indexed)
    (hspelt : ∀ t ∈ tokens, t.1.kind ≠ .reference →
      ∃ rest, Lexer.Spelt t.1.kind t.1.text.toList rest)
    (hrole : ∀ t ∈ ofIndexed .canonical tokens, t.Begins ∨ t.Continues) :
    ∀ t ∈ ofIndexed .canonical tokens, t.IsKeyed := by
  induction tokens using terminalInduction with
  | nil => exact List.forall_mem_nil _
  | call t u tokens h ih =>
    rw [ofIndexed_call h] at hrole ⊢
    refine List.forall_mem_cons.mpr ⟨?_, ih (fun v hv => hspelt v (by simp [hv]))
      (List.forall_mem_cons.mp hrole).2⟩
    have hkind : t.1.kind = .symbol := by
      simp only [startsCall, Bool.and_eq_true, beq_iff_eq] at h
      exact h.1.1
    obtain ⟨rest, hspelt⟩ := hspelt t List.mem_cons_self (by simp [hkind])
    rw [hkind] at hspelt
    cases hspelt with
    | symbol name called => exact ⟨.call name, rfl⟩
  | join t u v tokens h ih =>
    rw [ofIndexed_join h] at hrole ⊢
    exact List.forall_mem_cons.mpr ⟨isKeyed_reference .., ih (fun w hw => hspelt w (by simp [hw]))
      (List.forall_mem_cons.mp hrole).2⟩
  | alone t tokens h ih =>
    rw [ofIndexed_alone h] at hrole ⊢
    obtain ⟨hspelt, hspeltRest⟩ := List.forall_mem_cons.mp hspelt
    obtain ⟨hrole, hroleRest⟩ := List.forall_mem_cons.mp hrole
    exact List.forall_mem_cons.mpr ⟨isKeyed_ofToken hspelt hrole, ih hspeltRest hroleRest⟩

/-! ### Neighbours in a key -/

variable {t u : Terminal}

theorem role_of_keyPart_name {text : String} (h : t.keyPart = .name text) : t.Ends := by
  unfold keyPart at h
  unfold Ends
  cases hrole : t.role <;> simp_all

theorem role_of_keyPart_operator {text : String} (h : t.keyPart = .fixed ⟨.operator, text⟩) :
    t.role = .operator ∧ t.text = text := by
  unfold keyPart at h
  cases hrole : t.role with
  | operand leaf =>
    simp only [hrole, leafPart] at h
    split at h <;> cases h
  | operator =>
    rw [hrole] at h
    cases h
    exact ⟨rfl, rfl⟩
  | _ => simp [hrole] at h

/-- The first character of a token of a fixed spelling. -/
theorem head_of_legible {token : Token} (h : (KeyPart.fixed token).Legible) :
    ∃ c cs, token.text.toList = c :: cs ∧ c ∈ Lexer.delimiters ∧ c ≠ '\'' ∧
      (token.kind ≠ .leftParen → c ≠ '(') ∧ (token.kind ≠ .operator → c ≠ '=' ∧ c ≠ '>') := by
  cases h with
  | @operator text mem =>
    obtain ⟨c, cs, htext, hc, hbracket, -, -, hquote⟩ := Lexer.exists_cons_of_mem_operators mem
    refine ⟨c, cs, htext, List.mem_of_mem_drop hc, hquote, fun _ => ?_,
      fun hkind => absurd rfl hkind⟩
    rintro rfl
    exact hbracket (by decide)
  | @punctuation c kind mem known =>
    have hmarks : ∀ p ∈ Lexer.punctuation, p.1 ∈ Lexer.delimiters ∧ p.1 ≠ '\'' ∧
        (p.2 ≠ .leftParen → p.1 ≠ '(') ∧ p.1 ≠ '=' ∧ p.1 ≠ '>' := by
      decide
    obtain ⟨hc, hquote, hparen, hop⟩ := hmarks _ mem
    exact ⟨c, [], String.toList_ofList, hc, hquote, hparen, fun _ => hop⟩

theorem head_of_nameText {s : List Char} (h : Lexer.NameText s) :
    ∃ c cs, s = c :: cs ∧ c ≠ '=' ∧ c ≠ '>' := by
  obtain ⟨c, cs, rfl, hc⟩ := h.exists_cons
  refine ⟨c, cs, rfl, ?_⟩
  rcases hc with hc | rfl
  · constructor <;> (rintro rfl; cases hc)
  · decide

theorem keyPart_of_continues (h : t.Continues) :
    ∃ kind, t.keyPart = .fixed ⟨kind, t.text⟩ ∧ kind ≠ .leftParen := by
  unfold Continues at h
  unfold keyPart
  cases hrole : t.role with
  | operator | rightParen | rightBrace | argSeparator | rowSeparator => exact ⟨_, rfl, nofun⟩
  | _ => simp [hrole] at h

/-- What stands after an operand continues no name and calls none. -/
theorem head_of_continues (h : t.Continues) (hlegible : t.keyPart.Legible) :
    ∃ c cs, t.keyPart.text.toList = c :: cs ∧ c ∈ Lexer.delimiters ∧ c ≠ '\'' ∧ c ≠ '(' := by
  obtain ⟨kind, hpart, hkind⟩ := keyPart_of_continues h
  rw [hpart] at hlegible ⊢
  obtain ⟨c, cs, htext, hc, hquote, hparen, -⟩ := head_of_legible hlegible
  exact ⟨c, cs, by rw [KeyPart.text_fixed, htext], hc, hquote, hparen hkind⟩

/-- What stands where an operand is awaited lengthens no operator. -/
theorem head_of_begins (h : t.Begins) (hlegible : t.keyPart.Legible) :
    ∃ c cs, t.keyPart.text.toList = c :: cs ∧ c ≠ '=' ∧ c ≠ '>' := by
  generalize hpart : t.keyPart = part at hlegible
  cases hlegible with
  | literal mark =>
    exact ⟨'|', mark.letter.toList ++ ['|'], by simp [KeyPart.text_literal], by decide, by decide⟩
  | name hname =>
    rw [KeyPart.text_name]
    exact head_of_nameText hname
  | call hname =>
    obtain ⟨c, cs, htext, hc⟩ := head_of_nameText hname
    exact ⟨c, cs ++ ['('], by simp [KeyPart.text_call, htext], hc⟩
  | @operator text mem =>
    obtain ⟨hrole, rfl⟩ := role_of_keyPart_operator hpart
    simp only [Begins, hrole, Operator.isSign, Bool.or_eq_true, beq_iff_eq] at h
    rw [KeyPart.text_fixed]
    rcases h with h | h
    · exact ⟨'+', [], by rw [h]; rfl, by decide, by decide⟩
    · exact ⟨'-', [], by rw [h]; rfl, by decide, by decide⟩
  | @punctuation c kind mem known =>
    have hmarks : ∀ p ∈ Lexer.punctuation, p.1 ≠ '=' ∧ p.1 ≠ '>' := by decide
    exact ⟨c, [], by rw [KeyPart.text_fixed, String.toList_ofList], hmarks _ mem⟩

/-- A legible part of the key is a word. -/
theorem isWord_keyPart (h : t.keyPart.Legible) :
    t.IsWord t.keyPart.tokens t.keyPart.text.toList where
  cuts hx hfits hcuts := by
    refine h.cuts hx ⟨fun text htext => hfits.operand (role_of_keyPart_name htext), ?_⟩ hcuts
    intro text htext hop
    obtain ⟨hrole, rfl⟩ := role_of_keyPart_operator htext
    exact hfits.operator hrole hop
  continues hcontinues := head_of_continues hcontinues h
  begins hbegins := head_of_begins hbegins h

/-- The key of terminals is cut into the tokens of their parts. -/
theorem cuts_key {x : Lexer} (hx : x.IsCanonical) {terminals : List Terminal}
    (hchain : terminals.IsChain Adjacent) (hlegible : ∀ t ∈ terminals, t.keyPart.Legible) :
    x.Cuts (terminals.flatMap fun t => t.keyPart.tokens)
      (terminals.flatMap fun t => t.keyPart.text.toList) := by
  have hwords : List.Forall₂ (fun t tokens => t.IsWord tokens t.keyPart.text.toList) terminals
      (terminals.map fun t => t.keyPart.tokens) := by
    rw [List.forall₂_map_right_iff, List.forall₂_same]
    exact fun t ht => isWord_keyPart (hlegible t ht)
  exact cuts_words hx hwords hchain

theorem isChain_apart {terminals : List Terminal} (hchain : terminals.IsChain Adjacent) :
    (terminals.map keyPart).IsChain KeyPart.Apart := by
  refine (List.isChain_map keyPart).mpr (hchain.imp fun t u hadjacent text htext v hv => ?_)
  obtain ⟨kind, hpart, hkind⟩ := keyPart_of_continues (hadjacent.1 (role_of_keyPart_name htext))
  rw [hpart] at hv
  cases hv
  exact hkind

/-- Terminals that can follow each other have one structure if they have one key. -/
theorem recast_eq_of_key_eq {ts us : List Terminal} (hts : ∀ t ∈ ts, t.IsKeyed)
    (hus : ∀ u ∈ us, u.IsKeyed) (htchain : ts.IsChain Adjacent) (huchain : us.IsChain Adjacent)
    (h : String.join (ts.map fun t => t.keyPart.text) =
      String.join (us.map fun u => u.keyPart.text)) :
    ts.map (recast .structural) = us.map (recast .structural) := by
  have hx := Lexer.isCanonical_ofText []
  have htcuts := cuts_key hx htchain fun t ht => (hts t ht).1
  have hucuts := cuts_key hx huchain fun u hu => (hus u hu).1
  have htext : (ts.flatMap fun t => t.keyPart.text.toList) =
      us.flatMap fun u => u.keyPart.text.toList := by
    have hlist := congrArg String.toList h
    rw [String.toList_join, String.toList_join, List.flatMap_map, List.flatMap_map] at hlist
    exact hlist
  have htokens := htcuts.tokens_eq.symm.trans (htext ▸ hucuts.tokens_eq)
  have hparts : ts.map keyPart = us.map keyPart := by
    refine KeyPart.eq_of_tokens_eq ?_ ?_ (isChain_apart htchain) (isChain_apart huchain) ?_
    · exact List.forall_mem_map.mpr fun t ht => (hts t ht).1
    · exact List.forall_mem_map.mpr fun u hu => (hus u hu).1
    · rw [List.flatMap_map, List.flatMap_map]
      exact htokens
  calc ts.map (recast .structural)
      = (ts.map keyPart).map KeyPart.terminal := by
        rw [List.map_map]
        exact List.map_congr_left fun t ht => (hts t ht).2
    _ = (us.map keyPart).map KeyPart.terminal := by rw [hparts]
    _ = us.map (recast .structural) := by
        rw [List.map_map]
        exact (List.map_congr_left fun u hu => (hus u hu).2).symm

end Terminal

/-- The terminals of a formula that is read give their structure back. -/
theorem Terminal.isKeyed_of_parse {formula : String} {root : Expr}
    (h : Expr.parse {} formula = .ok root) :
    ∀ t ∈ Terminal.ofTokens .canonical (Token.rangeTokenize .canonical formula), t.IsKeyed :=
  isKeyed_ofIndexed _ (fun _ ht hkind =>
    Token.spelt_of_mem_rangeTokenize (Literals.mem_of_mem_significant ht).1 hkind)
    (Parser.isChain_of_ofTokens h).2

/-- The key of a formula is put together from the parts of its terminals. -/
theorem Literals.key_rangeTokenize (formula : String) :
    (ofTokens .canonical (Token.rangeTokenize .canonical formula)).key =
      String.join ((Terminal.ofTokens .canonical
        (Token.rangeTokenize .canonical formula)).map fun t => t.keyPart.text) := by
  rw [← ofTokens_unspaced, ← map_fst_significant]
  exact key_ofIndexed _ (fun t ht => (mem_of_mem_significant ht).2)
    fun t ht => Token.text_of_leftParen (mem_of_mem_significant ht).1

/-- Formulas with one key have one structure. -/
theorem Expr.structure_eq_of_key_eq {f g : String} {root root' : Expr}
    (hf : Expr.parse {} f = .ok root) (hg : Expr.parse {} g = .ok root')
    (hkey : (Literals.ofTokens .canonical (Token.rangeTokenize .canonical f)).key =
      (Literals.ofTokens .canonical (Token.rangeTokenize .canonical g)).key) :
    root.structure = root'.structure := by
  have hrecast := Terminal.recast_eq_of_key_eq (Terminal.isKeyed_of_parse hf)
    (Terminal.isKeyed_of_parse hg) (Parser.isChain_of_ofTokens hf).1
    (Parser.isChain_of_ofTokens hg).1
    (by rwa [Literals.key_rangeTokenize, Literals.key_rangeTokenize] at hkey)
  have hroot := Parser.run_recast_of_ofTokens .structural rfl hf
  rw [hrecast, Parser.run_recast_of_ofTokens .structural rfl hg] at hroot
  exact (Option.some.inj hroot).symm

end SheetFormula
