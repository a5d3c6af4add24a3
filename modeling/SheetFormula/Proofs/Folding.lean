import Mathlib.Data.List.TakeWhile
import SheetFormula.Text.Blank
import SheetFormula.Text.Casing

/-!
Letters and blanks where only the alphabet counts. Among the first 128 characters the change of case is that
of the alphabet, and four characters from outside are moved among them: two of them have small forms there,
two have capitals. So a text that becomes a plain word in small letters or in capitals is that word, but for
these characters. The blanks at the ends of a text do not count when it is trimmed.
-/

set_option autoImplicit false

namespace SheetFormula.Text

/-! ### Letters -/

/-- A rule for the case of letters that holds for the alphabet, with some characters more. -/
def foldCase (more : List (Char × Char)) (rule : Char → Char) (c : Char) : Char :=
  (more.lookup c).getD (rule c)

/-- The capital with a dot and the sign of the kelvin have small forms in the alphabet. -/
def moreCapitals : List (Char × Char) :=
  [('İ', 'i'), ('\u212a', 'k')]

/-- The `i` without a dot and the long `s` have capital forms in the alphabet. -/
def moreSmalls : List (Char × Char) :=
  [('ı', 'I'), ('ſ', 'S')]

/-- The small letter that a character counts as. -/
def foldLower : Char → Char :=
  foldCase moreCapitals Char.toLower

/-- The capital that a character counts as. -/
def foldUpper : Char → Char :=
  foldCase moreSmalls Char.toUpper

/-- No character from outside the first 128 is moved among them, unless it is listed. -/
def CaseRun.staysOut (listed : List Nat) (r : CaseRun) : Bool :=
  r.last < 128 || (r.first == r.last && listed.contains r.first) ||
    (128 ≤ r.first + r.shift && r.last + r.shift < 0xd800) ||
    (0xe000 ≤ r.first + r.shift && r.last + r.shift < 0x110000)

theorem toNat_ofNat {n : Nat} (h : n.isValidChar) : (Char.ofNat n).toNat = n := by
  rw [Char.ofNat, dif_pos h]
  rfl

theorem CaseRun.mem_of_image? {listed : List Nat} {r : CaseRun} (hr : r.staysOut listed = true)
    {c : Char} {n : Nat} (hc : 128 ≤ c.toNat) (himage : r.image? c.toNat = some n)
    (hn : (Char.ofNat n).toNat < 128) : c.toNat ∈ listed := by
  unfold image? at himage
  split at himage
  · rename_i hin
    have hshift : n = (c.toNat + r.shift).toNat := (Option.some.inj himage).symm
    simp only [staysOut, Bool.or_eq_true, Bool.and_eq_true, decide_eq_true_eq, beq_iff_eq,
      List.contains_eq_mem] at hr
    rcases hr with ((hlast | ⟨hone, hlisted⟩) | hlow) | hhigh
    · omega
    · have hfirst : c.toNat = r.first := by omega
      rw [hfirst]
      exact hlisted
    · rw [toNat_ofNat (Or.inl (by omega))] at hn
      omega
    · rw [toNat_ofNat (Or.inr (by omega))] at hn
      omega
  · cases himage

theorem mem_of_mapCase {listed : List Nat} {runs : List CaseRun}
    (hruns : ∀ r ∈ runs, r.staysOut listed = true) {c : Char} (hc : 128 ≤ c.toNat)
    (h : (mapCase runs c).toNat < 128) : c.toNat ∈ listed := by
  induction runs with
  | nil =>
    rw [mapCase] at h
    omega
  | cons r runs ih =>
    obtain ⟨hr, hruns⟩ := List.forall_mem_cons.mp hruns
    rw [mapCase] at h
    split at h
    · omega
    · split at h
      · rename_i himage
        exact r.mem_of_image? hr hc himage h
      · exact ih hruns h

/-- The code points on which a folding rule can have an image among the first 128. -/
def foldedCodes (more : List (Char × Char)) : List Nat :=
  List.range 128 ++ more.map fun pair => pair.1.toNat

theorem foldCase_of_not_mem {more : List (Char × Char)} {rule : Char → Char} {c : Char}
    (h : c.toNat ∉ more.map fun pair => pair.1.toNat) : foldCase more rule c = rule c := by
  have hlookup : more.lookup c = none := by
    refine List.lookup_eq_none_iff.mpr fun pair hpair => bne_iff_ne.mpr ?_
    rintro rfl
    exact h (List.mem_map_of_mem hpair)
  rw [foldCase, hlookup, Option.getD_none]

theorem mem_of_foldCase {more : List (Char × Char)} {rule : Char → Char}
    (hrule : ∀ c, 128 ≤ c.toNat → rule c = c) {c : Char}
    (h : (foldCase more rule c).toNat < 128) : c.toNat ∈ foldedCodes more := by
  rw [foldedCodes, List.mem_append, List.mem_range, or_iff_not_imp_left, Nat.not_lt]
  intro hc
  by_contra hnot
  rw [foldCase_of_not_mem hnot, hrule c hc] at h
  omega

/-- Where the image is one of the first 128 characters, runs do what a folding rule does. -/
theorem mapCase_eq_iff {runs : List CaseRun} {more : List (Char × Char)} {rule : Char → Char}
    (hruns : ∀ r ∈ runs, r.staysOut (more.map fun pair => pair.1.toNat) = true)
    (hrule : ∀ c, 128 ≤ c.toNat → rule c = c)
    (hsame : ∀ n ∈ foldedCodes more,
      mapCase runs (Char.ofNat n) = foldCase more rule (Char.ofNat n))
    {c l : Char} (hl : l.toNat < 128) : mapCase runs c = l ↔ foldCase more rule c = l := by
  by_cases hc : c.toNat ∈ foldedCodes more
  · have hagree := hsame c.toNat hc
    rw [Char.ofNat_toNat] at hagree
    rw [hagree]
  · refine iff_of_false ?_ ?_
    · rintro rfl
      rw [foldedCodes, List.mem_append, List.mem_range, not_or, Nat.not_lt] at hc
      exact hc.2 (mem_of_mapCase hruns hc.1 hl)
    · rintro rfl
      exact hc (mem_of_foldCase hrule hl)

theorem toLower_of_not_capital {c : Char} (h : c.toNat < 65 ∨ 90 < c.toNat) : c.toLower = c := by
  refine dif_neg ?_
  rintro ⟨hle, hle'⟩
  have hlow : 65 ≤ c.toNat := hle
  have hhigh : c.toNat ≤ 90 := hle'
  omega

theorem toUpper_of_not_small {c : Char} (h : c.toNat < 97 ∨ 122 < c.toNat) : c.toUpper = c := by
  refine dif_neg ?_
  rintro ⟨hle, hle'⟩
  have hlow : 97 ≤ c.toNat := hle
  have hhigh : c.toNat ≤ 122 := hle'
  omega

theorem toLower_of_le {c : Char} (hc : 128 ≤ c.toNat) : c.toLower = c :=
  toLower_of_not_capital (by omega)

theorem toUpper_of_le {c : Char} (hc : 128 ≤ c.toNat) : c.toUpper = c :=
  toUpper_of_not_small (by omega)

/-- Where the rule already has an image among the first 128 characters, folding does the same. -/
theorem foldCase_eq {more : List (Char × Char)} {rule : Char → Char}
    (hmore : more.all (128 ≤ ·.1.toNat) = true) (hrule : ∀ c, 128 ≤ c.toNat → rule c = c)
    {c : Char} (h : (rule c).toNat < 128) : foldCase more rule c = rule c := by
  refine foldCase_of_not_mem fun hmem => ?_
  obtain ⟨pair, hpair, hcode⟩ := List.mem_map.mp hmem
  have hle : 128 ≤ pair.1.toNat := of_decide_eq_true (List.all_eq_true.mp hmore pair hpair)
  rw [hrule c (hcode ▸ hle)] at h
  omega

theorem lowerChar_eq_iff {c l : Char} (hl : l.toNat < 128) :
    lowerChar c = l ↔ foldLower c = l :=
  mapCase_eq_iff (List.all_eq_true.mp (by decide +kernel)) (fun _ => toLower_of_le)
    (by decide +kernel) hl

theorem upperChar_eq_iff {c l : Char} (hl : l.toNat < 128) :
    upperChar c = l ↔ foldUpper c = l :=
  mapCase_eq_iff (List.all_eq_true.mp (by decide +kernel)) (fun _ => toUpper_of_le)
    (by decide +kernel) hl

theorem map_eq_iff {f g : Char → Char} (h : ∀ c l, l.toNat < 128 → (f c = l ↔ g c = l))
    {word : List Char} (hword : ∀ l ∈ word, l.toNat < 128) (cs : List Char) :
    cs.map f = word ↔ cs.map g = word := by
  induction cs generalizing word with
  | nil => rfl
  | cons c cs ih =>
    cases word with
    | nil => simp
    | cons l word =>
      obtain ⟨hl, hword⟩ := List.forall_mem_cons.mp hword
      rw [List.map_cons, List.map_cons, List.cons.injEq, List.cons.injEq, h c l hl, ih hword]

theorem map_lowerChar_eq_iff {word : List Char} (hword : word.all (·.toNat < 128) = true)
    (cs : List Char) : cs.map lowerChar = word ↔ cs.map foldLower = word :=
  map_eq_iff (fun _ _ => lowerChar_eq_iff) (by simpa using hword) cs

theorem map_upperChar_eq_iff {word : List Char} (hword : word.all (·.toNat < 128) = true)
    (cs : List Char) : cs.map upperChar = word ↔ cs.map foldUpper = word :=
  map_eq_iff (fun _ _ => upperChar_eq_iff) (by simpa using hword) cs

theorem map_foldCase {more : List (Char × Char)} {rule : Char → Char}
    (hmore : more.all (128 ≤ ·.1.toNat) = true) (hrule : ∀ c, 128 ≤ c.toNat → rule c = c)
    {cs word : List Char} (h : cs.map rule = word) (hword : word.all (·.toNat < 128) = true) :
    cs.map (foldCase more rule) = word := by
  rw [← h]
  refine List.map_congr_left fun c hc => foldCase_eq hmore hrule ?_
  have hmem : rule c ∈ word := h ▸ List.mem_map_of_mem hc
  simpa using List.all_eq_true.mp hword _ hmem

theorem map_foldUpper {cs word : List Char} (h : cs.map Char.toUpper = word)
    (hword : word.all (·.toNat < 128) = true) : cs.map foldUpper = word :=
  map_foldCase (by decide) (fun _ => toUpper_of_le) h hword

theorem map_foldLower {cs word : List Char} (h : cs.map Char.toLower = word)
    (hword : word.all (·.toNat < 128) = true) : cs.map foldLower = word :=
  map_foldCase (by decide) (fun _ => toLower_of_le) h hword

/-! ### Blanks -/

section Blanks

variable {s left right : List Char}

theorem trim_eq_nil_iff : trim s = [] ↔ ∀ c ∈ s, isBlank c = true := by
  rw [trim, List.reverse_eq_nil_iff, List.dropWhile_eq_nil_iff]
  simp only [List.mem_reverse]
  constructor
  · intro h c hc
    rw [← List.takeWhile_append_dropWhile (p := isBlank) (l := s), List.mem_append] at hc
    exact hc.elim (fun htake => List.mem_takeWhile_imp htake) (h c)
  · intro h c hc
    exact h c ((List.dropWhile_suffix _).subset hc)

theorem trim_append (hright : ∀ c ∈ right, isBlank c = true) :
    trim (s ++ right) = trim s := by
  rw [trim, trim, List.dropWhile_append]
  split
  · rename_i hblank
    rw [List.isEmpty_iff.mp hblank, List.dropWhile_eq_nil_iff.mpr hright]
  · rw [List.reverse_append, List.dropWhile_append_of_pos (by simpa using hright)]

theorem trim_padded (hleft : ∀ c ∈ left, isBlank c = true)
    (hright : ∀ c ∈ right, isBlank c = true) :
    trim (left ++ s ++ right) = trim s := by
  rw [List.append_assoc, trim, List.dropWhile_append_of_pos hleft, ← trim,
    trim_append hright]

theorem trim_of_forall (h : ∀ c ∈ s, isBlank c = false) : trim s = s := by
  have hdrop (t : List Char) (ht : ∀ c ∈ t, isBlank c = false) :
      t.dropWhile isBlank = t := by
    cases t with
    | nil => rfl
    | cons c t => exact List.dropWhile_cons_of_neg (by simp [ht c List.mem_cons_self])
  rw [trim, hdrop s h, hdrop s.reverse (by simpa using h), List.reverse_reverse]

theorem trim_of_ends {first last : Char} (hfirst : isBlank first = false)
    (hlast : isBlank last = false) (s : List Char) :
    trim (first :: (s ++ [last])) = first :: (s ++ [last]) := by
  simp [trim, List.dropWhile_cons_of_neg, hfirst, hlast]

theorem filter_trim {p : Char → Bool} (h : ∀ c ∈ s, isBlank c = true → p c = false) :
    (trim s).filter p = s.filter p := by
  have hdrop (t : List Char) (ht : ∀ c ∈ t, isBlank c = true → p c = false) :
      (t.dropWhile isBlank).filter p = t.filter p := by
    induction t with
    | nil => rfl
    | cons c t ih =>
      obtain ⟨hc, ht⟩ := List.forall_mem_cons.mp ht
      rw [List.dropWhile_cons]
      split
      · rename_i hblank
        rw [ih ht, List.filter_cons_of_neg (by simp [hc hblank])]
      · rfl
  rw [trim, List.filter_reverse, hdrop, List.filter_reverse, List.reverse_reverse, hdrop s h]
  intro c hc
  exact h c ((List.dropWhile_suffix _).subset (List.mem_reverse.mp hc))

/-- The last character that is no blank. -/
theorem exists_last (h : ∃ c ∈ s, isBlank c = false) :
    ∃ t last blanks, s = t ++ [last] ++ blanks ∧ isBlank last = false ∧
      ∀ c ∈ blanks, isBlank c = true := by
  have hsplit := List.takeWhile_append_dropWhile (p := isBlank) (l := s.reverse)
  have hhead := List.head?_dropWhile_not isBlank s.reverse
  cases hdrop : s.reverse.dropWhile isBlank with
  | nil =>
    obtain ⟨c, hc, hnot⟩ := h
    have hblank := List.dropWhile_eq_nil_iff.mp hdrop c (List.mem_reverse.mpr hc)
    rw [hnot] at hblank
    cases hblank
  | cons last rest =>
    rw [hdrop] at hsplit hhead
    refine ⟨rest.reverse, last, (s.reverse.takeWhile isBlank).reverse, ?_, ?_, ?_⟩
    · simpa using (congrArg List.reverse hsplit).symm
    · simpa using hhead
    · intro c hc
      exact List.mem_takeWhile_imp (List.mem_reverse.mp hc)

end Blanks

end SheetFormula.Text
