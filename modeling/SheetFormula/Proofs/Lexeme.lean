import Mathlib.Data.Bool.AllAny
import Mathlib.Data.List.TakeWhile
import Mathlib.Tactic.Common
import SheetFormula.Token.Lexer

/-!
How a text falls into tokens. A text is cut into lexemes, each of which is the first token of what is
left (`Lexer.Cuts`), and there is one way to do so. In the canonical locale every lexeme has a shape of
its own, and a text of that shape is a lexeme again wherever what follows does not continue it.
-/

set_option autoImplicit false

namespace SheetFormula

theorem Token.toList_spell (xs : List Token) :
    (spell xs).toList = xs.flatMap fun t => t.text.toList := by
  rw [spell, String.toList_join, List.flatMap_map]

namespace Lexer

variable {x : Lexer} {kind : Token.Kind} {s rest : List Char}

/-! ### Runs -/

/-- The text does not begin with a character of the class. -/
def Stops (p : Char → Bool) (text : List Char) : Prop :=
  ∀ c ∈ text.head?, p c = false

theorem stops_nil (p : Char → Bool) : Stops p [] := by
  simp [Stops]

theorem stops_cons {p : Char → Bool} {c : Char} {cs : List Char} :
    Stops p (c :: cs) ↔ p c = false := by
  simp [Stops]

theorem Stops.mono {p q : Char → Bool} {text : List Char} (h : Stops p text)
    (hpq : ∀ c, q c = true → p c = true) : Stops q text := by
  intro c hc
  by_contra hq
  have hp := h c hc
  rw [hpq c (by simpa using hq)] at hp
  cases hp

theorem run_le_length (p : Char → Bool) (text : List Char) : run p text ≤ text.length :=
  (List.takeWhile_sublist p).length_le

theorem run_append {p : Char → Bool} (hs : ∀ c ∈ s, p c = true) (hrest : Stops p rest) :
    run p (s ++ rest) = s.length := by
  have htake : rest.takeWhile p = [] := by
    cases rest with
    | nil => rfl
    | cons c cs => exact List.takeWhile_cons_of_neg (by simp [stops_cons.mp hrest])
  rw [run, List.takeWhile_append_of_pos hs, htake, List.append_nil]

theorem run_eq_length {p : Char → Bool} (h : run p (s ++ rest) = s.length) :
    (∀ c ∈ s, p c = true) ∧ Stops p rest := by
  induction s with
  | nil =>
    refine ⟨List.forall_mem_nil _, ?_⟩
    cases rest with
    | nil => exact stops_nil p
    | cons c cs =>
      rw [stops_cons]
      by_contra hc
      rw [List.nil_append, run, List.takeWhile_cons_of_pos (by simpa using hc)] at h
      simp at h
  | cons c s ih =>
    rw [List.cons_append, run] at h
    by_cases hc : p c = true
    · rw [List.takeWhile_cons_of_pos hc, List.length_cons, List.length_cons] at h
      obtain ⟨hs, hrest⟩ := ih (Nat.succ.inj h)
      exact ⟨List.forall_mem_cons.mpr ⟨hc, hs⟩, hrest⟩
    · rw [List.takeWhile_cons_of_neg hc] at h
      simp at h

theorem take_run (p : Char → Bool) (text : List Char) :
    text.take (run p text) = text.takeWhile p :=
  (List.prefix_iff_eq_take.mp (List.takeWhile_prefix p)).symm

theorem forall_mem_take_run (p : Char → Bool) (text : List Char) :
    ∀ c ∈ text.take (run p text), p c = true := by
  intro c hc
  rw [take_run] at hc
  exact List.mem_takeWhile_imp hc

theorem take_run_eq_nil_iff (p : Char → Bool) (text : List Char) :
    text.take (run p text) = [] ↔ run p text = 0 := by
  rw [take_run, run, List.length_eq_zero_iff]

/-! ### Lengths -/

theorem stringTail_le_length (cs : List Char) : stringTail cs ≤ cs.length := by
  fun_induction stringTail cs <;> simp only [List.length_nil, List.length_cons] <;> omega

theorem quotedTail?_le_length {cs : List Char} {n : Nat} (h : quotedTail? cs = some n) :
    n ≤ cs.length := by
  fun_induction quotedTail? cs generalizing n with
  | case1 => cases h
  | case2 rest ih =>
    obtain ⟨k, hk, rfl⟩ := Option.map_eq_some_iff.mp h
    have := ih hk
    simp only [List.length_cons]
    omega
  | case3 => simp_all
  | case4 c rest _ _ ih =>
    obtain ⟨k, hk, rfl⟩ := Option.map_eq_some_iff.mp h
    have := ih hk
    simp only [List.length_cons]
    omega

/-- How many signs begin the text, none or one. -/
def signLength : List Char → Nat
  | '+' :: _ => 1
  | '-' :: _ => 1
  | _ => 0

theorem signLength_le_length (text : List Char) : signLength text ≤ text.length := by
  unfold signLength
  split <;> simp

theorem exponentLength_cons (c : Char) (cs : List Char) :
    exponentLength (c :: cs) =
      if c == 'e' || c == 'E' then
        if run Char.isDigit (cs.drop (signLength cs)) = 0 then 0
        else 1 + signLength cs + run Char.isDigit (cs.drop (signLength cs))
      else 0 := rfl

theorem exponentLength_le_length (text : List Char) : exponentLength text ≤ text.length := by
  cases text with
  | nil => exact Nat.le_refl _
  | cons c cs =>
    have hsign := signLength_le_length cs
    have hrun := run_le_length Char.isDigit (cs.drop (signLength cs))
    rw [List.length_drop] at hrun
    rw [exponentLength_cons, List.length_cons]
    split
    · split <;> omega
    · omega

theorem exists_append_of_startsWith {separator text : List Char}
    (h : startsWith separator text = true) : separator ≠ [] ∧ ∃ tail, text = separator ++ tail := by
  simp only [startsWith, Bool.and_eq_true, bne_iff_ne] at h
  obtain ⟨tail, htail⟩ := List.isPrefixOf_iff_prefix.mp h.2
  exact ⟨h.1, tail, htail.symm⟩

theorem length_le_of_startsWith {separator text : List Char}
    (h : startsWith separator text = true) : separator.length ≤ text.length := by
  obtain ⟨hseparator, tail, rfl⟩ := exists_append_of_startsWith h
  simp

theorem number?_le_length {text : List Char} {n : Nat} (h : x.number? text = some n) :
    n ≤ text.length := by
  have hwhole := run_le_length Char.isDigit text
  simp only [number?] at h
  split at h
  · rename_i hdecimal
    have hseparator := length_le_of_startsWith hdecimal
    have hfraction := run_le_length Char.isDigit
      ((text.drop (run Char.isDigit text)).drop x.decimal.length)
    simp only [List.length_drop] at hseparator hfraction
    split at h
    · cases h
    · have hexponent := exponentLength_le_length (text.drop (run Char.isDigit text +
        x.decimal.length +
          run Char.isDigit ((text.drop (run Char.isDigit text)).drop x.decimal.length)))
      simp only [List.length_drop] at hexponent
      cases h
      omega
  · split at h
    · cases h
    · have hexponent := exponentLength_le_length (text.drop (run Char.isDigit text))
      simp only [List.length_drop] at hexponent
      cases h
      omega

theorem name_le_length (c : Char) (cs : List Char) : (name c cs).2 ≤ cs.length + 1 := by
  unfold name
  split
  · split
    · simp
    · rename_i n hquoted
      have hn := quotedTail?_le_length hquoted
      have hrun := run_le_length isSymbolChar (cs.drop n)
      rw [List.length_drop] at hrun
      simp only
      omega
  · have hrun := run_le_length isSymbolChar (c :: cs)
    rw [List.length_cons] at hrun
    simp only
    split
    · simp
    · simp only
      omega

theorem bracket?_kind {c : Char} (h : bracket? c = some kind) :
    kind ∈ [.leftParen, .rightParen, .leftBrace, .rightBrace] := by
  unfold bracket? at h
  split at h <;> cases h <;> decide

theorem nameKind_kind (text : List Char) (length : Nat) :
    nameKind text length ∈ [.reference, .symbol] := by
  unfold nameKind
  split <;> decide

theorem name_kind (c : Char) (cs : List Char) :
    (name c cs).1 ∈ [.unknown, .reference, .symbol] := by
  unfold name
  split
  · split
    · exact List.mem_cons_self
    · exact List.mem_cons_of_mem _ (nameKind_kind _ _)
  · simp only
    split
    · exact List.mem_cons_self
    · exact List.mem_cons_of_mem _ (nameKind_kind _ _)

theorem number?_of_first {c : Char} {cs : List Char} {n : Nat} (h : x.first c cs = (.number, n)) :
    x.number? (c :: cs) = some n := by
  have hrule := rule_first x c cs
  generalize x.first c cs = found at h hrule
  cases hrule with
  | bracket hbracket =>
    obtain ⟨rfl, -⟩ := Prod.mk.inj h
    exact absurd (bracket?_kind hbracket) (by decide)
  | number hnumber =>
    obtain ⟨-, rfl⟩ := Prod.mk.inj h
    exact hnumber
  | name =>
    have hkind := name_kind c cs
    simp [h] at hkind
  | _ => cases (Prod.mk.inj h).1

theorem string_of_first {c : Char} {cs : List Char} {n : Nat} (h : x.first c cs = (.string, n)) :
    c = '"' ∧ n = 1 + stringTail cs := by
  have hrule := rule_first x c cs
  generalize x.first c cs = found at h hrule
  cases hrule with
  | bracket hbracket =>
    obtain ⟨rfl, -⟩ := Prod.mk.inj h
    exact absurd (bracket?_kind hbracket) (by decide)
  | string hquote => exact ⟨hquote, (Prod.mk.inj h).2.symm⟩
  | name =>
    have hkind := name_kind c cs
    simp [h] at hkind
  | _ => cases (Prod.mk.inj h).1

theorem name_of_first {c : Char} {cs : List Char} {n : Nat} (h : x.first c cs = (kind, n))
    (hkind : kind ∈ [.reference, .symbol]) : name c cs = (kind, n) := by
  have hrule := rule_first x c cs
  generalize x.first c cs = found at h hrule
  cases hrule with
  | bracket hbracket =>
    obtain ⟨rfl, -⟩ := Prod.mk.inj h
    have hother := bracket?_kind hbracket
    simp only [List.mem_cons, List.not_mem_nil, or_false] at hkind
    rcases hkind with rfl | rfl <;> simp at hother
  | name => exact h
  | _ =>
    obtain ⟨rfl, -⟩ := Prod.mk.inj h
    simp at hkind

/-- A token lies within the text. -/
theorem first_le_length (x : Lexer) (c : Char) (cs : List Char) :
    (x.first c cs).2 ≤ cs.length + 1 := by
  have hrule := rule_first x c cs
  generalize x.first c cs = found at hrule
  cases hrule with
  | lineBreak => exact run_le_length _ (c :: cs)
  | blank => exact run_le_length _ (c :: cs)
  | row h => exact length_le_of_startsWith h
  | argument h => exact length_le_of_startsWith h
  | bracket h => simp
  | @operator op h =>
    have hprefix := List.find?_some (p := (List.isPrefixOf · (c :: cs))) h
    exact (List.isPrefixOf_iff_prefix.mp hprefix).length_le
  | string h =>
    have := stringTail_le_length cs
    simp only
    omega
  | debugger h => simp
  | invalidReference h => exact (List.isPrefixOf_iff_prefix.mp h).length_le
  | number h => exact number?_le_length h
  | name => exact name_le_length c cs

/-! ### Lexemes -/

/-- The text `s ++ rest` begins with the token `s`. -/
def Lexeme (x : Lexer) (kind : Token.Kind) (s rest : List Char) : Prop :=
  ∃ c cs, s = c :: cs ∧ x.first c (cs ++ rest) = (kind, s.length)

theorem tokens_lexeme (h : x.Lexeme kind s rest) :
    x.tokens (s ++ rest) = ⟨kind, String.ofList s⟩ :: x.tokens rest := by
  obtain ⟨c, cs, rfl, hfirst⟩ := h
  rw [List.cons_append, tokens, hfirst]
  simp

theorem exists_lexeme (x : Lexer) {text : List Char} (h : text ≠ []) :
    ∃ kind s rest, text = s ++ rest ∧ x.Lexeme kind s rest := by
  obtain ⟨c, cs, rfl⟩ := List.exists_cons_of_ne_nil h
  have hpos := one_le_first x c cs
  have hlength := first_le_length x c cs
  refine ⟨(x.first c cs).1, c :: cs.take ((x.first c cs).2 - 1),
    cs.drop ((x.first c cs).2 - 1), ?_, c, _, rfl, ?_⟩
  · rw [List.cons_append, List.take_append_drop]
  · rw [List.take_append_drop, List.length_cons, List.length_take, Nat.min_eq_left (by omega),
      Nat.sub_add_cancel hpos]

/-- The tokens cut the text into its lexemes. -/
inductive Cuts (x : Lexer) : List Token → List Char → Prop
  | nil : Cuts x [] []
  | cons {kind : Token.Kind} {s rest : List Char} {tokens : List Token}
    (lexeme : x.Lexeme kind s rest) (cuts : Cuts x tokens rest) :
    Cuts x (⟨kind, String.ofList s⟩ :: tokens) (s ++ rest)

theorem Cuts.tokens_eq {tokens : List Token} {text : List Char} (h : Cuts x tokens text) :
    x.tokens text = tokens := by
  induction h with
  | nil => rw [Lexer.tokens]
  | cons lexeme cuts ih => rw [tokens_lexeme lexeme, ih]

/-- Tokens that cut a text spell it. -/
theorem Cuts.toList_spell {tokens : List Token} {text : List Char} (h : Cuts x tokens text) :
    (Token.spell tokens).toList = text := by
  rw [Token.toList_spell]
  induction h with
  | nil => rfl
  | cons lexeme cuts ih => rw [List.flatMap_cons, ih, String.toList_ofList]

theorem Lexeme.length_pos (h : x.Lexeme kind s rest) : 0 < s.length := by
  obtain ⟨c, cs, rfl, -⟩ := h
  simp

theorem cuts_tokens (x : Lexer) (text : List Char) : Cuts x (x.tokens text) text := by
  by_cases h : text = []
  · rw [h, Lexer.tokens]
    exact .nil
  · obtain ⟨kind, s, rest, htext, hlexeme⟩ := exists_lexeme x h
    have hcuts := cuts_tokens x rest
    rw [htext, tokens_lexeme hlexeme]
    exact .cons hlexeme hcuts
termination_by text.length
decreasing_by
  have hpos := hlexeme.length_pos
  rw [htext, List.length_append]
  omega

/-- Every token is a lexeme of the text at its place. -/
theorem Cuts.lexeme_of_mem {tokens : List Token} {text : List Char} (h : Cuts x tokens text)
    {t : Token} (ht : t ∈ tokens) : ∃ rest, x.Lexeme t.kind t.text.toList rest := by
  induction h with
  | nil => cases ht
  | @cons kind s rest tokens lexeme cuts ih =>
    rcases List.mem_cons.mp ht with rfl | ht
    · exact ⟨rest, by simpa using lexeme⟩
    · exact ih ht

end Lexer

end SheetFormula
