import Mathlib.Computability.Language
import SheetFormula.Proofs.Ranges

/-!
Addresses as regular languages. A pattern is built from single characters by union, concatenation and
repetition, as a regular expression is: `\$?[A-Za-z]{1,3}` is a column, `\$?[0-9]{1,7}` is a row, a cell
is a column and a row, and `(?:'(?:[^']|'')+'!|[^'!]+!)?` may stand in front as the name of a sheet. The
functions that look at addresses accept these languages and nothing else.
-/

set_option autoImplicit false

namespace SheetFormula

open scoped Computability

namespace Pattern

/-- One character of a class. -/
def one (p : Char → Bool) : Language Char :=
  {s | ∃ c, p c = true ∧ s = [c]}

/-- Between `least` and `most` words, one after the other. -/
def between (least most : Nat) (l : Language Char) : Language Char :=
  {s | ∃ n, least ≤ n ∧ n ≤ most ∧ s ∈ l ^ n}

/-- One word or more, one after the other. -/
def many (l : Language Char) : Language Char :=
  l * l∗

/-- The mark of an absolute coordinate, or nothing. -/
def mark : Language Char :=
  1 + {['$']}

/-- A column without a sheet. -/
def column : Language Char :=
  mark * between 1 3 (one Char.isAlpha)

/-- A row without a sheet. -/
def row : Language Char :=
  mark * between 1 7 (one Char.isDigit)

/-- A cell without a sheet. -/
def cell : Language Char :=
  column * row

/-- The name of a sheet: in quotes, where a quote is written twice, or without a quote and an
exclamation mark. -/
def sheetName : Language Char :=
  {['\'']} * many (one (· != '\'') + {['\'', '\'']}) * {['\'']} +
    many (one fun c => c != '\'' && c != '!')

/-- A sheet name with its exclamation mark, or nothing. -/
def sheet : Language Char :=
  1 + sheetName * {['!']}

variable {p : Char → Bool} {l : Language Char} {s t : List Char}

/-! ### Membership -/

theorem mem_one : s ∈ one p ↔ ∃ c, p c = true ∧ s = [c] := Iff.rfl

theorem mem_singleton : s ∈ ({t} : Language Char) ↔ s = t := Iff.rfl

theorem mem_pow_one {n : Nat} : s ∈ one p ^ n ↔ (∀ c ∈ s, p c = true) ∧ s.length = n := by
  induction n generalizing s with
  | zero =>
    rw [pow_zero, Language.mem_one, List.length_eq_zero_iff]
    refine ⟨?_, And.right⟩
    rintro rfl
    exact ⟨List.forall_mem_nil _, rfl⟩
  | succ n ih =>
    rw [pow_succ', Language.mem_mul]
    constructor
    · rintro ⟨_, ⟨c, hc, rfl⟩, t, ht, rfl⟩
      obtain ⟨hall, hlength⟩ := ih.mp ht
      exact ⟨List.forall_mem_cons.mpr ⟨hc, hall⟩, congrArg (· + 1) hlength⟩
    · rintro ⟨hall, hlength⟩
      obtain ⟨c, t, rfl⟩ := List.exists_cons_of_length_eq_add_one hlength
      obtain ⟨hc, ht⟩ := List.forall_mem_cons.mp hall
      exact ⟨[c], ⟨c, hc, rfl⟩, t, ih.mpr ⟨ht, Nat.succ.inj hlength⟩, rfl⟩

theorem mem_between_one {least most : Nat} :
    s ∈ between least most (one p) ↔
      (∀ c ∈ s, p c = true) ∧ least ≤ s.length ∧ s.length ≤ most := by
  constructor
  · rintro ⟨n, hleast, hmost, hs⟩
    obtain ⟨hall, rfl⟩ := mem_pow_one.mp hs
    exact ⟨hall, hleast, hmost⟩
  · rintro ⟨hall, hleast, hmost⟩
    exact ⟨s.length, hleast, hmost, mem_pow_one.mpr ⟨hall, rfl⟩⟩

theorem append_mem_kstar (hs : s ∈ l) (ht : t ∈ l∗) : s ++ t ∈ l∗ := by
  obtain ⟨words, rfl, hwords⟩ := ht
  exact Language.join_mem_kstar (L := s :: words) (List.forall_mem_cons.mpr ⟨hs, hwords⟩)

/-- Of words that are not empty, one or more are any number of them that do not make the empty text. -/
theorem mem_many (hl : [] ∉ l) : s ∈ many l ↔ s ∈ l∗ ∧ s ≠ [] := by
  constructor
  · rintro ⟨u, hu, v, hv, rfl⟩
    refine ⟨append_mem_kstar hu hv, ?_⟩
    intro hnil
    rw [(List.append_eq_nil_iff.mp hnil).1] at hu
    exact hl hu
  · rintro ⟨⟨words, rfl, hwords⟩, hne⟩
    cases words with
    | nil => exact absurd rfl hne
    | cons u words =>
      obtain ⟨hu, hrest⟩ := List.forall_mem_cons.mp hwords
      exact Language.append_mem_mul hu (Language.join_mem_kstar hrest)

theorem nil_not_mem_one : [] ∉ one p := by
  rintro ⟨c, -, ⟨⟩⟩

theorem mem_kstar_one : s ∈ (one p)∗ ↔ ∀ c ∈ s, p c = true := by
  constructor
  · rintro ⟨words, rfl, hwords⟩ c hc
    obtain ⟨w, hw, hcw⟩ := List.mem_flatten.mp hc
    obtain ⟨d, hd, rfl⟩ := hwords w hw
    rwa [List.mem_singleton.mp hcw]
  · intro hs
    induction s with
    | nil => exact Language.nil_mem_kstar _
    | cons c s ih =>
      obtain ⟨hc, hs⟩ := List.forall_mem_cons.mp hs
      exact append_mem_kstar (s := [c]) ⟨c, hc, rfl⟩ (ih hs)

theorem mem_mark_mul : s ∈ mark * l ↔ s ∈ l ∨ ∃ t ∈ l, s = '$' :: t := by
  rw [mark, add_mul, one_mul, Language.mem_add]
  apply or_congr_right
  constructor
  · rintro ⟨_, rfl, t, ht, rfl⟩
    exact ⟨t, ht, rfl⟩
  · rintro ⟨t, ht, rfl⟩
    exact ⟨['$'], rfl, t, ht, rfl⟩

theorem mem_sheet_mul :
    s ∈ sheet * l ↔ s ∈ l ∨ ∃ name ∈ sheetName, ∃ t ∈ l, s = name ++ '!' :: t := by
  rw [sheet, add_mul, one_mul, Language.mem_add]
  apply or_congr_right
  constructor
  · rintro ⟨_, ⟨name, hname, _, rfl, rfl⟩, t, ht, rfl⟩
    exact ⟨name, hname, t, ht, by simp⟩
  · rintro ⟨name, hname, t, ht, rfl⟩
    exact ⟨name ++ ['!'], ⟨name, hname, ['!'], rfl, rfl⟩, t, ht, by simp⟩

end Pattern

namespace Address

open Pattern

variable {s w name : List Char}

/-! ### Columns, rows and cells -/

theorem isColumnName_iff : isColumnName s = true ↔ s ∈ between 1 3 (one Char.isAlpha) := by
  rw [mem_between_one, isColumnName]
  simp [and_assoc]

theorem isRowName_iff : isRowName s = true ↔ s ∈ between 1 7 (one Char.isDigit) := by
  rw [mem_between_one, isRowName]
  simp [and_assoc]

/-- What is behind the mark belongs to a language without marks in front. -/
theorem dropMark_mem_iff {l : Language Char} (hl : ∀ t, '$' :: t ∉ l) :
    dropMark s ∈ l ↔ s ∈ mark * l := by
  rw [mem_mark_mul]
  unfold dropMark
  split
  · rename_i rest
    constructor
    · intro hrest
      exact .inr ⟨rest, hrest, rfl⟩
    · rintro (hs | ⟨t, ht, heq⟩)
      · exact absurd hs (hl rest)
      · rwa [(List.cons.inj heq).2]
  · rename_i hne
    constructor
    · exact .inl
    · rintro (hs | ⟨t, -, rfl⟩)
      · exact hs
      · exact absurd rfl (hne t)

theorem mark_not_mem {p : Char → Bool} {least most : Nat} (hp : p '$' = false) (t : List Char) :
    '$' :: t ∉ between least most (one p) := by
  intro hmem
  rw [(mem_between_one.mp hmem).1 '$' List.mem_cons_self] at hp
  cases hp

theorem isColumn_iff : isColumn s = true ↔ s ∈ column := by
  rw [isColumn, isColumnName_iff, dropMark_mem_iff (mark_not_mem rfl), column]

theorem isRow_iff : isRow s = true ↔ s ∈ row := by
  rw [isRow, isRowName_iff, dropMark_mem_iff (mark_not_mem rfl), row]

/-- A row does not begin with a letter. -/
theorem stops_of_mem_row (h : s ∈ row) : Lexer.Stops Char.isAlpha s := by
  rcases mem_mark_mul.mp h with hdigits | ⟨t, -, rfl⟩
  · intro c hc
    exact not_isAlpha_of_isDigit ((mem_between_one.mp hdigits).1 c (List.mem_of_mem_head? hc))
  · rw [Lexer.stops_cons]
    rfl

theorem isCell_iff : isCell s = true ↔ s ∈ cell := by
  have hmark : ∀ t, '$' :: t ∉ between 1 3 (one Char.isAlpha) * row := by
    rintro t ⟨letters, hletters, _, -, heq⟩
    obtain ⟨hall, hpos, -⟩ := mem_between_one.mp hletters
    obtain ⟨c, cs, rfl⟩ := List.exists_cons_of_length_pos hpos
    cases heq
    cases hall '$' List.mem_cons_self
  rw [cell, column, mul_assoc, ← dropMark_mem_iff hmark, isCell]
  generalize dropMark s = rest
  rw [Bool.and_eq_true, isColumnName_iff, isRow_iff]
  constructor
  · rintro ⟨hletters, hrow⟩
    exact ⟨_, hletters, _, hrow, List.takeWhile_append_dropWhile⟩
  · rintro ⟨letters, hletters, digits, hdigits, rfl⟩
    have hall := (mem_between_one.mp hletters).1
    have hstops := stops_of_mem_row hdigits
    have hsplit : digits.takeWhile Char.isAlpha = [] ∧ digits.dropWhile Char.isAlpha = digits := by
      cases digits with
      | nil => exact ⟨rfl, rfl⟩
      | cons d digits =>
        have hd := Lexer.stops_cons.mp hstops
        exact ⟨List.takeWhile_cons_of_neg (by simp [hd]), List.dropWhile_cons_of_neg (by simp [hd])⟩
    rw [List.takeWhile_append_of_pos hall, List.dropWhile_append_of_pos hall, hsplit.1, hsplit.2,
      List.append_nil]
    exact ⟨hletters, hdigits⟩

/-! ### Sheets -/

/-- What stands between the quotes of a quoted name. -/
theorem closesAtEnd_iff :
    closesAtEnd s = true ↔ ∃ body ∈ (one (· != '\'') + {['\'', '\'']})∗, s = body ++ ['\''] := by
  constructor
  · intro h
    fun_induction closesAtEnd s with
    | case1 => cases h
    | case2 => exact ⟨[], Language.nil_mem_kstar _, rfl⟩
    | case3 rest ih =>
      obtain ⟨body, hbody, rfl⟩ := ih h
      exact ⟨['\'', '\''] ++ body, append_mem_kstar (.inr rfl) hbody, rfl⟩
    | case4 => cases h
    | case5 c rest hlast hpair hquote ih =>
      obtain ⟨body, hbody, rfl⟩ := ih h
      exact ⟨[c] ++ body, append_mem_kstar (.inl ⟨c, by simpa using hquote, rfl⟩) hbody, rfl⟩
  · rintro ⟨_, ⟨words, rfl, hwords⟩, rfl⟩
    induction words with
    | nil => rfl
    | cons w words ih =>
      obtain ⟨hw, hrest⟩ := List.forall_mem_cons.mp hwords
      have hclosed := ih hrest
      rcases hw with ⟨c, hc, rfl⟩ | hw
      · have hquote : c ≠ '\'' := by simpa using hc
        rw [List.flatten_cons, List.append_assoc, List.singleton_append]
        rwa [closesAtEnd] <;> simp [hquote]
      · rw [mem_singleton.mp hw]
        exact hclosed

theorem isSheetName_iff : isSheetName s = true ↔ s ∈ sheetName := by
  have hnil : [] ∉ one (· != '\'') + {['\'', '\'']} := by
    rintro (hone | hpair)
    · exact nil_not_mem_one hone
    · cases hpair
  rw [sheetName, Language.mem_add, mem_many nil_not_mem_one, mem_kstar_one]
  cases s with
  | nil =>
    constructor
    · rintro ⟨⟩
    · rintro (⟨_, ⟨_, rfl, body, -, rfl⟩, _, -, ⟨⟩⟩ | ⟨-, hne⟩)
      exact absurd rfl hne
  | cons c cs =>
    by_cases hc : c = '\''
    · subst hc
      rw [isSheetName, Bool.and_eq_true, bne_iff_ne, closesAtEnd_iff]
      constructor
      · rintro ⟨hne, body, hbody, rfl⟩
        have hmany : body ∈ many (one (· != '\'') + {['\'', '\'']}) := by
          refine (mem_many hnil).mpr ⟨hbody, ?_⟩
          rintro rfl
          exact hne rfl
        exact .inl ⟨['\''] ++ body, ⟨['\''], rfl, body, hmany, rfl⟩, ['\''], rfl, rfl⟩
      · rintro (⟨_, ⟨_, rfl, body, hmany, rfl⟩, _, rfl, heq⟩ | ⟨hall, -⟩)
        · obtain ⟨hbody, hne⟩ := (mem_many hnil).mp hmany
          obtain rfl : cs = body ++ ['\''] := (List.cons.inj heq).2.symm
          refine ⟨?_, body, hbody, rfl⟩
          intro hempty
          exact hne (by simpa using hempty)
        · cases hall '\'' List.mem_cons_self
    · have hplain : isSheetName (c :: cs) = (c :: cs).all fun d => d != '\'' && d != '!' := by
        rw [isSheetName] <;> simp [hc]
      rw [hplain, List.all_eq_true]
      constructor
      · intro hall
        exact .inr ⟨hall, List.cons_ne_nil c cs⟩
      · rintro (⟨_, ⟨_, rfl, body, -, rfl⟩, _, -, heq⟩ | ⟨hall, -⟩)
        · exact absurd (List.cons.inj heq).1.symm hc
        · exact hall

theorem localPart?_append (h : ∀ c ∈ w, c ≠ '!') :
    localPart? (name ++ '!' :: w) = if isSheetName name then some w else none := by
  have htake : (name ++ '!' :: w).reverse.takeWhile (· != '!') = w.reverse := by
    have hall : ∀ c ∈ w.reverse, (c != '!') = true := by
      intro c hc
      simpa using h c (List.mem_reverse.mp hc)
    rw [List.reverse_append, List.reverse_cons, List.append_assoc,
      List.takeWhile_append_of_pos hall, List.singleton_append,
      List.takeWhile_cons_of_neg (by simp), List.append_nil]
  have hlength : (name ++ '!' :: w).length - w.length - 1 = name.length := by
    rw [List.length_append, List.length_cons]
    omega
  have hshort : w.length ≠ (name ++ '!' :: w).length := by
    rw [List.length_append, List.length_cons]
    omega
  simp only [localPart?, htake, List.reverse_reverse, hshort, if_false, hlength, List.take_left]

/-- There is no exclamation mark in a text, or a last one. -/
theorem bare_or_eq_append (s : List Char) :
    (∀ c ∈ s, c ≠ '!') ∨ ∃ name w, (∀ c ∈ w, c ≠ '!') ∧ s = name ++ '!' :: w := by
  induction s with
  | nil => exact .inl (List.forall_mem_nil _)
  | cons c s ih =>
    rcases ih with hs | ⟨name, w, hw, rfl⟩
    · by_cases hc : c = '!'
      · exact .inr ⟨[], s, hs, by rw [hc]; rfl⟩
      · exact .inl (List.forall_mem_cons.mpr ⟨hc, hs⟩)
    · exact .inr ⟨c :: name, w, hw, rfl⟩

/-- A text is an address of a shape, on a sheet or not, exactly where it spells one. -/
theorem onSheet_iff {shape : List Char → Bool} {l : Language Char}
    (hshape : ∀ s, shape s = true ↔ s ∈ l) (hbare : ∀ s, shape s = true → ∀ c ∈ s, c ≠ '!') :
    onSheet shape s = true ↔ s ∈ sheet * l := by
  rw [mem_sheet_mul]
  constructor
  · intro h
    rcases bare_or_eq_append s with hs | ⟨name, w, hw, rfl⟩
    · rw [onSheet, localPart?_of_bare hs] at h
      exact .inl ((hshape s).mp h)
    · rw [onSheet, localPart?_append hw] at h
      split at h
      · exact .inr ⟨name, isSheetName_iff.mp ‹_›, w, (hshape w).mp h, rfl⟩
      · cases h
  · rintro (hs | ⟨name, hname, w, hw, rfl⟩)
    · have hs := (hshape s).mpr hs
      exact onSheet_of_bare (hbare s hs) hs
    · have hw := (hshape w).mpr hw
      rw [onSheet, localPart?_append (hbare w hw), if_pos (isSheetName_iff.mpr hname)]
      exact hw

theorem onSheet_isColumn_iff : onSheet isColumn s = true ↔ s ∈ sheet * column :=
  onSheet_iff (fun _ => isColumn_iff) fun _ => bare_of_isColumn

theorem onSheet_isRow_iff : onSheet isRow s = true ↔ s ∈ sheet * row :=
  onSheet_iff (fun _ => isRow_iff) fun _ => bare_of_isRow

end Address

end SheetFormula
