import Mathlib.Data.List.Forall2
import SheetFormula.Proofs.Cutting
import SheetFormula.Proofs.Folding

/-!
What declarations of arguments say. A body is cut at the commas that stand outside quotes, and each of the
texts between them has to say something: that the argument is optional or repeats, a default, or a type
(`Declaration.Manner.Spells`). The reader is lenient with letters: it takes a few characters for letters of
the alphabet that are none. A declaration that is put together from parts is read as those parts, and
reading fails exactly when one of the texts says nothing.
-/

set_option autoImplicit false

namespace SheetFormula

namespace Declaration

/-! ### What a part says -/

/-- A way of writing parts: which letters of words and of tags the characters stand for, and what may stand
as a default. -/
structure Manner where
  word : Char → Char
  tag : Char → Char
  value : List Char → Prop

/-- Written in this manner, the text says the part. A tag may have spaces in it, and a default must not be
blank. -/
inductive Manner.Spells (m : Manner) : List Char → Part → Prop
  | optional {cs : List Char} (h : cs.map m.word = "optional".toList) : m.Spells cs .optional
  | repeating {cs : List Char} (h : cs.map m.word = "repeating".toList) : m.Spells cs .repeating
  | fallback {key value : List Char} (hkey : key.map m.word = "default=".toList)
    (hvalue : m.value value) (hblank : ∃ c ∈ value, Text.isBlank c = false) :
    m.Spells (key ++ value) (.fallback (String.ofList (Text.trim value)))
  | type {cs : List Char} {t : ArgType} (h : (cs.filter (· != ' ')).map m.tag = t.tag.toList) :
    m.Spells cs (.type t)

/-- Letters in both cases, and defaults that can stand between commas. -/
def Manner.plain : Manner :=
  ⟨Char.toLower, Char.toUpper, Contained⟩

/-- Everything that counts as a letter, and any default. -/
def Manner.lenient : Manner :=
  ⟨Text.foldLower, Text.foldUpper, fun _ => True⟩

theorem mem_all (t : ArgType) : t ∈ ArgType.all := by
  cases t with
  | scalar type => cases type <;> decide
  | range => decide
  | rangeOf type => cases type <;> decide
  | reference => decide

theorem ascii_tag (t : ArgType) : t.tag.toList.all (·.toNat < 128) = true := by
  have hall : ∀ u ∈ ArgType.all, u.tag.toList.all (·.toNat < 128) = true := by decide +kernel
  exact hall t (mem_all t)

theorem ofTag?_eq_some_iff {tag : String} {t : ArgType} :
    ArgType.ofTag? tag = some t ↔ t.tag = tag := by
  constructor
  · intro h
    simpa using List.find?_some h
  · rintro rfl
    have hall : ∀ u ∈ ArgType.all, ArgType.ofTag? u.tag = some u := by decide +kernel
    exact hall t (mem_all t)

theorem after?_eq_some_iff {pattern cs rest : List Char} :
    Text.after? pattern cs = some rest ↔ cs = pattern ++ rest := by
  induction pattern generalizing cs with
  | nil => simp [Text.after?]
  | cons p pattern ih =>
    cases cs with
    | nil => simp [Text.after?]
    | cons c cs =>
      rw [Text.after?]
      split
      · rename_i h
        subst h
        simp [ih]
      · rename_i h
        simp [Ne.symm h]

/-- A character that becomes one of these small letters is the letter in one of its cases. -/
theorem foldUpper_of_lowerChar {c : Char} (h : Text.lowerChar c ∈ "oprde".toList) :
    Text.foldUpper c = (Text.lowerChar c).toUpper ∧ c ≠ ' ' := by
  have hall : ∀ n ∈ Text.foldedCodes Text.moreCapitals,
      Text.foldLower (Char.ofNat n) ∈ "oprde".toList →
        Text.foldUpper (Char.ofNat n) = (Text.foldLower (Char.ofNat n)).toUpper ∧
          Char.ofNat n ≠ ' ' := by
    decide +kernel
  have hascii : (Text.lowerChar c).toNat < 128 :=
    of_decide_eq_true (List.all_eq_true.mp (by decide : "oprde".toList.all (·.toNat < 128)) _ h)
  have hfold : Text.foldLower c = Text.lowerChar c := (Text.lowerChar_eq_iff hascii).mp rfl
  rw [← hfold] at h hascii ⊢
  have hc := hall c.toNat (Text.mem_of_foldCase (fun _ => Text.toLower_of_le) hascii)
  rw [Char.ofNat_toNat] at hc
  exact hc h

/-- A text that spells a tag does not begin with two letters with which no tag begins. -/
theorem map_lowerChar_ne_of_tag {cs rest : List Char} {t : ArgType} {a b : Char}
    (htag : (cs.filter (· != ' ')).map Text.foldUpper = t.tag.toList)
    (ha : a ∈ "oprde".toList) (hb : b ∈ "oprde".toList)
    (hstart : ∀ u ∈ ArgType.all, u.tag.toList.take 2 ≠ [a.toUpper, b.toUpper]) :
    cs.map Text.lowerChar ≠ a :: b :: rest := by
  intro hlower
  rcases cs with _ | ⟨c, _ | ⟨d, cs⟩⟩
  · simp at hlower
  · simp at hlower
  · simp only [List.map_cons, List.cons.injEq] at hlower
    obtain ⟨rfl, rfl, -⟩ := hlower
    obtain ⟨hc, hspace⟩ := foldUpper_of_lowerChar ha
    obtain ⟨hd, hspace'⟩ := foldUpper_of_lowerChar hb
    apply hstart t (mem_all t)
    rw [← htag, List.filter_cons_of_pos (by simpa using hspace),
      List.filter_cons_of_pos (by simpa using hspace'), List.map_cons, List.map_cons, hc, hd]
    rfl

/-! ### Reading parts -/

theorem spells_of_part {name : String} {cs : List Char} {q : Part} (h : part name cs = .ok q) :
    Manner.lenient.Spells cs q := by
  simp only [part] at h
  split at h
  · rename_i hword
    cases h
    exact .optional ((Text.map_lowerChar_eq_iff (by decide) cs).mp hword)
  split at h
  · rename_i hword
    cases h
    exact .repeating ((Text.map_lowerChar_eq_iff (by decide) cs).mp hword)
  split at h
  · rename_i hafter
    obtain ⟨key, value, rfl, hkey, -⟩ := List.map_eq_append_iff.mp (after?_eq_some_iff.mp hafter)
    have hlength : "default=".length = key.length := by
      rw [← String.length_toList, ← hkey, List.length_map]
    rw [hlength, List.drop_left] at h
    split at h
    · cases h
    · rename_i hvalue
      cases h
      refine .fallback ((Text.map_lowerChar_eq_iff (by decide) key).mp hkey) trivial ?_
      simpa [Text.trim_eq_nil_iff] using hvalue
  split at h
  · rename_i htag
    cases h
    have hupper := congrArg String.toList (ofTag?_eq_some_iff.mp htag).symm
    rw [Text.upper, String.toList_ofList, String.toList_ofList] at hupper
    exact .type ((Text.map_upperChar_eq_iff (ascii_tag _) _).mp hupper)
  · cases h

theorem part_of_spells {name : String} {cs : List Char} {q : Part}
    (h : Manner.lenient.Spells cs q) : part name cs = .ok q := by
  simp only [part]
  cases h with
  | optional hword => rw [if_pos ((Text.map_lowerChar_eq_iff (by decide) cs).mpr hword)]
  | repeating hword =>
    have hlower := (Text.map_lowerChar_eq_iff (by decide) cs).mpr hword
    rw [if_neg (by rw [hlower]; decide), if_pos hlower]
  | fallback hkey hvalue hblank =>
    rename_i key value
    have hlower : (key ++ value).map Text.lowerChar =
        "default=".toList ++ value.map Text.lowerChar := by
      rw [List.map_append, (Text.map_lowerChar_eq_iff (by decide) key).mpr hkey]
    have hlength : "default=".length = key.length := by
      rw [← String.length_toList, ← hkey, List.length_map]
    have htrim : Text.trim value ≠ [] := by simpa [Text.trim_eq_nil_iff] using hblank
    rw [if_neg (by rw [hlower]; simp), if_neg (by rw [hlower]; simp),
      after?_eq_some_iff.mpr hlower]
    simp only [hlength, List.drop_left, if_neg htrim]
  | type htag =>
    -- a tag fails the tests that come before it, as it begins like none of the words
    rename_i t
    have hoptional : cs.map Text.lowerChar ≠ "optional".toList :=
      map_lowerChar_ne_of_tag (a := 'o') (b := 'p') htag (by decide) (by decide) (by decide)
    have hrepeating : cs.map Text.lowerChar ≠ "repeating".toList :=
      map_lowerChar_ne_of_tag (a := 'r') (b := 'e') htag (by decide) (by decide) (by decide)
    have hafter : Text.after? "default=".toList (cs.map Text.lowerChar) = none := by
      refine Option.eq_none_iff_forall_ne_some.mpr fun rest hrest => ?_
      exact map_lowerChar_ne_of_tag (a := 'd') (b := 'e') htag (by decide) (by decide) (by decide)
        (after?_eq_some_iff.mp hrest)
    have hupper : t.tag = Text.upper (String.ofList (cs.filter (· != ' '))) := by
      rw [Text.upper, String.toList_ofList, (Text.map_upperChar_eq_iff (ascii_tag t) _).mpr htag,
        String.ofList_toList]
    rw [if_neg hoptional, if_neg hrepeating, hafter]
    simp only [ofTag?_eq_some_iff.mpr hupper]

/-- The texts say the parts. -/
def Read (texts : List (List Char)) (parts : List Part) : Prop :=
  List.Forall₂ (fun text q => Manner.lenient.Spells (Text.trim text) q) texts parts

theorem addParts_eq_ok_iff {a b : Argument} {texts : List (List Char)} :
    addParts a texts = .ok b ↔ ∃ parts, Read texts parts ∧ b = parts.foldl Part.addTo a := by
  induction texts generalizing a with
  | nil => simp [addParts, Read, eq_comm]
  | cons text texts ih =>
    rw [addParts]
    cases hpart : part a.name (Text.trim text) with
    | error e =>
      simp only [reduceCtorEq, false_iff]
      rintro ⟨parts, hread, -⟩
      obtain ⟨q, parts, hq, -, -⟩ := List.forall₂_cons_left_iff.mp hread
      rw [part_of_spells hq] at hpart
      cases hpart
    | ok q =>
      simp only [ih]
      constructor
      · rintro ⟨parts, hread, rfl⟩
        exact ⟨q :: parts, .cons (spells_of_part hpart) hread, rfl⟩
      · rintro ⟨parts, hread, rfl⟩
        obtain ⟨q', parts, hq', hrest, rfl⟩ := List.forall₂_cons_left_iff.mp hread
        obtain rfl : q' = q := by
          rw [part_of_spells hq'] at hpart
          exact Except.ok.inj hpart
        exact ⟨parts, hrest, rfl⟩

/-! ### Arguments -/

/-- The type that a part names. -/
def Part.type? : Part → Option ArgType
  | .type t => some t
  | _ => none

/-- The default that a part gives. -/
def Part.fallback? : Part → Option String
  | .fallback value => some value
  | _ => none

/-- The argument that parts describe: their types in order, any value where they name none, and the last
default. -/
def argument (name description : String) (parts : List Part) : Argument where
  name := name
  description := description
  types := if parts.filterMap Part.type? = [] then [.scalar .any] else parts.filterMap Part.type?
  optional := decide (.optional ∈ parts)
  repeating := decide (.repeating ∈ parts)
  fallback := (parts.filterMap Part.fallback?).getLast?

theorem foldl_addTo (a : Argument) (parts : List Part) :
    parts.foldl Part.addTo a =
      { a with
        types := a.types ++ parts.filterMap Part.type?
        optional := a.optional || decide (.optional ∈ parts)
        repeating := a.repeating || decide (.repeating ∈ parts)
        fallback := (parts.filterMap Part.fallback?).getLast?.or a.fallback } := by
  induction parts generalizing a with
  | nil => simp
  | cons q parts ih =>
    rw [List.foldl_cons, ih]
    cases q <;> simp [Part.addTo, Part.type?, Part.fallback?, List.filterMap_cons, List.getLast?_cons]

theorem withSomeType_foldl (name description : String) (parts : List Part) :
    withSomeType (parts.foldl Part.addTo ⟨name, description, [], false, false, none⟩) =
      argument name description parts := by
  rw [foldl_addTo, withSomeType, argument]
  split <;> simp_all

/-! ### Whole declarations -/

/-- A letter or an underscore, then letters, digits and underscores. -/
def IsName (name : List Char) : Prop :=
  ∃ c cs, name = c :: cs ∧ isNameStart c = true ∧ ∀ d ∈ cs, isNameChar d = true

/-- The declaration with a name and a body. -/
def declared (name body : List Char) : String :=
  String.ofList (name ++ " (".toList ++ body ++ ")".toList)

theorem isAsciiBlank_of_isNameStart {c : Char} (h : isNameStart c = true) :
    Text.isAsciiBlank c = false := by
  by_contra hblank
  simp only [Text.isAsciiBlank, Bool.not_eq_false, Bool.or_eq_true, beq_iff_eq] at hblank
  rcases hblank with (((rfl | rfl) | rfl) | rfl) | rfl <;> exact absurd h (by decide)

theorem parameters?_close (body : List Char) :
    parameters? (body ++ ")".toList) = if '\n' ∈ body then none else some body := by
  have hreverse : (body ++ ")".toList).reverse = ')' :: body.reverse := by simp
  have hclose : ¬ Text.isAsciiBlank ')' = true := by decide
  rw [parameters?, hreverse, List.dropWhile_cons_of_neg hclose]
  simp

theorem split?_declared {name : List Char} (hname : IsName name) (body : List Char) :
    split? (declared name body).toList = if '\n' ∈ body then none else some (name, body) := by
  obtain ⟨c, cs, rfl, hstart, hcs⟩ := hname
  have htext : (declared (c :: cs) body).toList = c :: (cs ++ ' ' :: '(' :: (body ++ ")".toList)) := by
    simp [declared]
  have hblank : ¬ Text.isAsciiBlank c = true := by simp [isAsciiBlank_of_isNameStart hstart]
  have hspace : ¬ isNameChar ' ' = true := by decide
  rw [split?, htext, List.dropWhile_cons_of_neg hblank]
  simp only [hstart, if_true, List.takeWhile_append_of_pos hcs, List.dropWhile_append_of_pos hcs,
    List.takeWhile_cons_of_neg hspace, List.dropWhile_cons_of_neg hspace, List.append_nil]
  rw [List.dropWhile_cons_of_pos (by decide), List.dropWhile_cons_of_neg (by decide)]
  simp only [parameters?_close]
  split <;> rfl

theorem ofDeclaration_of_line {name body : List Char} (hname : IsName name) (description : String)
    (hline : '\n' ∈ body) :
    Argument.ofDeclaration (declared name body) description =
      .error (.malformed (declared name body)) := by
  rw [Argument.ofDeclaration, split?_declared hname, if_pos hline]

theorem ofDeclaration_of_blank {name body : List Char} (hname : IsName name)
    (description : String) (hline : '\n' ∉ body) (hblank : ∀ c ∈ body, Text.isBlank c = true) :
    Argument.ofDeclaration (declared name body) description =
      .ok (argument (String.ofList name) description []) := by
  rw [Argument.ofDeclaration, split?_declared hname, if_neg hline]
  simp only [List.all_eq_true.mpr hblank, if_true]
  rfl

/-- A body that is not blank is read as its texts are. -/
theorem ofDeclaration_eq_ok_iff {name body : List Char} {texts : List (List Char)} {a : Argument}
    (hname : IsName name) (description : String) (hcut : Cut body texts) (hline : '\n' ∉ body)
    (hblank : ¬ ∀ c ∈ body, Text.isBlank c = true) :
    Argument.ofDeclaration (declared name body) description = .ok a ↔
      ∃ parts, Read texts parts ∧ a = argument (String.ofList name) description parts := by
  rw [Argument.ofDeclaration, split?_declared hname, if_neg hline]
  simp only [List.all_eq_true, if_neg hblank, hcut.splitParts_eq]
  constructor
  · intro h
    cases hadd : addParts ⟨String.ofList name, description, [], false, false, none⟩ texts with
    | error e =>
      rw [hadd] at h
      cases h
    | ok b =>
      rw [hadd] at h
      cases h
      obtain ⟨parts, hread, rfl⟩ := addParts_eq_ok_iff.mp hadd
      exact ⟨parts, hread, withSomeType_foldl ..⟩
  · rintro ⟨parts, hread, rfl⟩
    rw [addParts_eq_ok_iff.mpr ⟨parts, hread, rfl⟩, ← withSomeType_foldl]
    rfl

theorem exists_read_iff {texts : List (List Char)} :
    (∃ parts, Read texts parts) ↔ ∀ text ∈ texts, ∃ q, Manner.lenient.Spells (Text.trim text) q := by
  induction texts with
  | nil => simp [Read]
  | cons text texts ih =>
    rw [List.forall_mem_cons, ← ih]
    constructor
    · rintro ⟨parts, hread⟩
      obtain ⟨q, parts, hq, hrest, -⟩ := List.forall₂_cons_left_iff.mp hread
      exact ⟨⟨q, hq⟩, parts, hrest⟩
    · rintro ⟨⟨q, hq⟩, parts, hread⟩
      exact ⟨q :: parts, .cons hq hread⟩

/-! ### Declarations put together from parts -/

/-- Blanks of one line. -/
def IsPadding (s : List Char) : Prop :=
  ∀ c ∈ s, Text.isBlank c = true ∧ c ≠ '\n'

/-- The text says the part in plain letters, with blanks around it. -/
def Written (text : List Char) (q : Part) : Prop :=
  ∃ left cs right, text = left ++ cs ++ right ∧ IsPadding left ∧ IsPadding right ∧
    Manner.plain.Spells cs q

/-- Quotes, commas and blanks, which stand in no word and no tag. -/
def isMark (c : Char) : Bool :=
  c == '"' || c == ',' || Text.isBlank c

theorem toNat_of_isMark {c : Char} (h : isMark c = true) : c.toNat < 65 ∨ 122 < c.toNat := by
  simp only [isMark, Text.isBlank, Bool.or_eq_true, Bool.and_eq_true, beq_iff_eq,
    decide_eq_true_eq] at h
  rcases h with (rfl | rfl) | h
  · decide
  · decide
  · omega

theorem isMark_of_map {f : Char → Char} (hf : ∀ c, isMark c = true → f c = c)
    {cs word : List Char} (h : cs.map f = word) (hword : word.all (!isMark ·) = true) :
    ∀ c ∈ cs, isMark c = false := by
  intro c hc
  by_contra hmark
  rw [Bool.not_eq_false] at hmark
  have hmem : c ∈ word := by
    rw [← h, ← hf c hmark]
    exact List.mem_map_of_mem hc
  have hnot := List.all_eq_true.mp hword c hmem
  simp [hmark] at hnot

theorem isMark_tag (t : ArgType) : t.tag.toList.all (!isMark ·) = true := by
  have hall : ∀ u ∈ ArgType.all, u.tag.toList.all (!isMark ·) = true := by decide +kernel
  exact hall t (mem_all t)

theorem isBlank_of_isMark {c : Char} (h : isMark c = false) : Text.isBlank c = false := by
  simp only [isMark, Bool.or_eq_false_iff] at h
  exact h.2

theorem contained_of_forall {s : List Char}
    (h : ∀ c ∈ s, (Text.isBlank c = true ∧ c ≠ '\n') ∨ isMark c = false) : Contained s := by
  have hne {d : Char} (hd : isMark d = true) (hblank : ¬ (Text.isBlank d = true ∧ d ≠ '\n')) :
      ∀ c ∈ s, c ≠ d := by
    rintro c hc rfl
    rcases h c hc with hpadding | hmark
    · exact hblank hpadding
    · rw [hd] at hmark
      cases hmark
  refine ⟨fun hline => hne (by decide) (by decide) '\n' hline rfl, closed_of_forall fun c hc => ?_⟩
  exact ⟨hne (by decide) (by decide) c hc, hne (by decide) (by decide) c hc⟩

theorem Contained.append {s t : List Char} (hs : Contained s) (ht : Contained t) :
    Contained (s ++ t) := by
  refine ⟨fun hline => ?_, hs.2.append ht.2⟩
  exact (List.mem_append.mp hline).elim hs.1 ht.1

/-- Words and tags have only letters in them; a tag may have spaces as well. -/
theorem isMark_of_word {cs word : List Char} (h : cs.map Char.toLower = word)
    (hword : word.all (!isMark ·) = true) : ∀ c ∈ cs, isMark c = false := by
  refine isMark_of_map (fun c hc => Text.toLower_of_not_capital ?_) h hword
  have hcode := toNat_of_isMark hc
  omega

theorem isMark_of_tag {cs : List Char} {t : ArgType}
    (h : (cs.filter (· != ' ')).map Char.toUpper = t.tag.toList) :
    ∀ c ∈ cs, c = ' ' ∨ isMark c = false := by
  intro c hc
  rw [or_iff_not_imp_left]
  intro hspace
  refine isMark_of_map (fun d hd => Text.toUpper_of_not_small ?_) h (isMark_tag t) c ?_
  · have hcode := toNat_of_isMark hd
    omega
  · exact List.mem_filter.mpr ⟨hc, by simpa using hspace⟩

theorem contained_of_spells {cs : List Char} {q : Part} (h : Manner.plain.Spells cs q) :
    Contained cs := by
  cases h with
  | optional hword => exact contained_of_forall fun c hc => .inr (isMark_of_word hword (by decide) c hc)
  | repeating hword => exact contained_of_forall fun c hc => .inr (isMark_of_word hword (by decide) c hc)
  | fallback hkey hvalue hblank =>
    have hcontained := contained_of_forall fun c hc => .inr (isMark_of_word hkey (by decide) c hc)
    exact hcontained.append hvalue
  | type htag =>
    refine contained_of_forall fun c hc => (isMark_of_tag htag c hc).imp_left ?_
    rintro rfl
    decide

/-- Plain writing is understood, whatever blanks stand at its ends. -/
theorem spells_trim {cs : List Char} {q : Part} (h : Manner.plain.Spells cs q) :
    Manner.lenient.Spells (Text.trim cs) q := by
  cases h with
  | optional hword =>
    rw [Text.trim_of_forall fun c hc => isBlank_of_isMark (isMark_of_word hword (by decide) c hc)]
    exact .optional (Text.map_foldLower hword (by decide))
  | repeating hword =>
    rw [Text.trim_of_forall fun c hc => isBlank_of_isMark (isMark_of_word hword (by decide) c hc)]
    exact .repeating (Text.map_foldLower hword (by decide))
  | fallback hkey hvalue hblank =>
    -- the blanks at the end of the value go, and the key keeps those at its front
    rename_i key value
    obtain ⟨start, last, blanks, rfl, hlast, hblanks⟩ := Text.exists_last hblank
    have htrim : Text.trim (key ++ (start ++ [last] ++ blanks)) = key ++ (start ++ [last]) := by
      obtain ⟨k, keys, rfl, -⟩ := List.map_eq_cons_iff.mp hkey
      have hk := isBlank_of_isMark (isMark_of_word hkey (by decide) k List.mem_cons_self)
      rw [← List.append_assoc, Text.trim_append hblanks, List.cons_append, ← List.append_assoc]
      exact Text.trim_of_ends hk hlast (keys ++ start)
    rw [htrim, Text.trim_append hblanks]
    exact .fallback (Text.map_foldLower hkey (by decide)) trivial ⟨last, by simp, hlast⟩
  | type htag =>
    rename_i t
    refine .type ?_
    rw [Text.filter_trim]
    · exact Text.map_foldUpper htag (ascii_tag t)
    · intro c hc hblank
      rcases isMark_of_tag htag c hc with rfl | hmark
      · rfl
      · rw [isBlank_of_isMark hmark] at hblank
        cases hblank

theorem Written.contained {text : List Char} {q : Part} (h : Written text q) : Contained text := by
  obtain ⟨left, cs, right, rfl, hleft, hright, hspells⟩ := h
  have hpadding {s : List Char} (hs : IsPadding s) : Contained s :=
    contained_of_forall fun c hc => .inl (hs c hc)
  exact ((hpadding hleft).append (contained_of_spells hspells)).append (hpadding hright)

theorem Written.spells {text : List Char} {q : Part} (h : Written text q) :
    Manner.lenient.Spells (Text.trim text) q := by
  obtain ⟨left, cs, right, rfl, hleft, hright, hspells⟩ := h
  rw [Text.trim_padded (fun c hc => (hleft c hc).1) fun c hc => (hright c hc).1]
  exact spells_trim hspells

theorem not_spells_nil (m : Manner) (q : Part) : ¬ m.Spells [] q := by
  intro h
  generalize hcs : ([] : List Char) = cs at h
  cases h with
  | optional hword => simp [← hcs] at hword
  | repeating hword => simp [← hcs] at hword
  | fallback hkey hvalue hblank => simp [(List.append_eq_nil_iff.mp hcs.symm).1] at hkey
  | type htag =>
    rename_i t
    have hall : ∀ u ∈ ArgType.all, u.tag.toList ≠ [] := by decide +kernel
    exact hall t (mem_all t) (by simpa [← hcs] using htag.symm)

theorem read_of_written {texts : List (List Char)} {parts : List Part}
    (h : List.Forall₂ Written texts parts) :
    Read texts parts ∧ ∀ text ∈ texts, Contained text := by
  induction h with
  | nil => exact ⟨.nil, List.forall_mem_nil _⟩
  | cons hq _ ih => exact ⟨.cons hq.spells ih.1, List.forall_mem_cons.mpr ⟨hq.contained, ih.2⟩⟩

/-- Texts that say something do not make a blank body. -/
theorem not_blank_of_read {body : List Char} {texts : List (List Char)} {parts : List Part}
    (hcut : Cut body texts) (hread : Read texts parts) :
    ¬ ∀ c ∈ body, Text.isBlank c = true := by
  intro hblank
  obtain ⟨text, htext, hsubset⟩ := hcut.exists_subset
  obtain ⟨q, hq⟩ := exists_read_iff.mp ⟨parts, hread⟩ text htext
  rw [Text.trim_eq_nil_iff.mpr fun c hc => hblank c (hsubset hc)] at hq
  exact not_spells_nil _ q hq

theorem exists_error_iff {ε α : Type} (x : Except ε α) : (∃ e, x = .error e) ↔ ¬ ∃ a, x = .ok a := by
  cases x <;> simp

end Declaration

open Declaration

/-- What a declaration says is read back from it. Parts in plain letters, joined by commas with blanks
around them, give the argument that they describe. A blank body gives an argument of any type. Any other body
is refused exactly if it does not keep to one line, or if one of the texts between its commas says nothing
even when the characters that count as letters are taken for letters. -/
theorem Argument.ofDeclaration_readsBack (name : List Char) (hname : IsName name)
    (description : String) :
    (∀ texts parts, texts ≠ [] → List.Forall₂ Written texts parts →
      ofDeclaration (declared name ([','].intercalate texts)) description =
        .ok (argument (String.ofList name) description parts)) ∧
    (∀ body, ∃ texts, Cut body texts) ∧
    ∀ body texts, Cut body texts →
      ((∀ c ∈ body, Text.isBlank c = true ∧ c ≠ '\n') →
        ofDeclaration (declared name body) description =
          .ok (argument (String.ofList name) description [])) ∧
      ((∃ c ∈ body, Text.isBlank c = false) →
        ((∃ e, ofDeclaration (declared name body) description = .error e) ↔
          '\n' ∈ body ∨ ∃ text ∈ texts, ∀ q, ¬ Manner.lenient.Spells (Text.trim text) q)) := by
  refine ⟨fun texts parts hne hwritten => ?_, exists_cut, fun body texts hcut => ⟨?_, ?_⟩⟩
  · obtain ⟨hread, hcontained⟩ := read_of_written hwritten
    have hcut := cut_intercalate hne fun text htext => (hcontained text htext).2
    have hline : '\n' ∉ [','].intercalate texts := by
      intro hmem
      obtain hcomma | ⟨text, htext, hmem⟩ := hcut.eq_comma_or_mem hmem
      · cases hcomma
      · exact (hcontained text htext).1 hmem
    exact (ofDeclaration_eq_ok_iff hname description hcut hline (not_blank_of_read hcut hread)).mpr
      ⟨parts, hread, rfl⟩
  · intro hblank
    exact ofDeclaration_of_blank hname description (fun hline => (hblank '\n' hline).2 rfl)
      fun c hc => (hblank c hc).1
  · rintro ⟨c, hc, hnot⟩
    by_cases hline : '\n' ∈ body
    -- a line feed is refused before any text is looked at
    · exact iff_of_true ⟨_, ofDeclaration_of_line hname description hline⟩ (.inl hline)
    · have hblank : ¬ ∀ c ∈ body, Text.isBlank c = true := fun h => by simp [h c hc] at hnot
      have hok : (∃ a, ofDeclaration (declared name body) description = .ok a) ↔
          ∃ parts, Read texts parts := by
        simp only [ofDeclaration_eq_ok_iff hname description hcut hline hblank]
        constructor
        · rintro ⟨-, parts, hread, -⟩
          exact ⟨parts, hread⟩
        · rintro ⟨parts, hread⟩
          exact ⟨_, parts, hread, rfl⟩
      rw [exists_error_iff, hok, exists_read_iff]
      simp [hline]

/-- Of a tag with spaces, a default with a comma and a parenthesis in quotes, and a word in capitals; and of
a text that says nothing. -/
theorem Argument.readsBack_of_separator :
    IsName "sep".toList ∧
      ofDeclaration "sep ( Range < Number >,default=\", )\" ,OPTIONAL)" "" =
        .ok ⟨"sep", "", [.rangeOf .number], true, false, some "\", )\""⟩ ∧
      ∃ e, ofDeclaration "sep (widget, number)" "" = .error e := by
  have hname : IsName "sep".toList := ⟨'s', ['e', 'p'], rfl, by decide, List.all_eq_true.mp (by decide)⟩
  have hnil : IsPadding [] := List.forall_mem_nil _
  have htype : Written " Range < Number >".toList (.type (.rangeOf .number)) :=
    ⟨[' '], "Range < Number >".toList, [], by decide, List.forall_mem_singleton.mpr (by decide), hnil,
      .type (by decide)⟩
  have hfallback : Written "default=\", )\" ".toList (.fallback "\", )\"") :=
    ⟨[], "default=\", )\" ".toList, [], by decide, hnil, hnil,
      @Manner.Spells.fallback .plain "default=".toList "\", )\" ".toList (by decide)
        (show Contained _ by decide) ⟨')', by decide, by decide⟩⟩
  have hoptional : Written "OPTIONAL".toList .optional :=
    ⟨[], "OPTIONAL".toList, [], by decide, hnil, hnil, .optional (by decide)⟩
  have hcut : Cut "widget, number".toList ["widget".toList, " number".toList] :=
    @Cut.comma "widget".toList " number".toList _ (by decide) (.last (by decide))
  have hwidget : ∀ q, ¬ Manner.lenient.Spells (Text.trim "widget".toList) q := by
    intro q hq
    have hpart : part "sep" (Text.trim "widget".toList) = .error (.unknownType "sep" "widget") := by
      decide +kernel
    rw [part_of_spells hq] at hpart
    cases hpart
  have hbody : "sep ( Range < Number >,default=\", )\" ,OPTIONAL)" = declared "sep".toList
      ([','].intercalate [" Range < Number >".toList, "default=\", )\" ".toList, "OPTIONAL".toList]) := by
    decide +kernel
  have hbody' : "sep (widget, number)" = declared "sep".toList "widget, number".toList := by
    decide +kernel
  obtain ⟨hwritten, -, hread⟩ := ofDeclaration_readsBack _ hname ""
  refine ⟨hname, ?_, ?_⟩
  · rw [hbody, hwritten _ _ (List.cons_ne_nil _ _)
      (.cons htype (.cons hfallback (.cons hoptional .nil)))]
    decide +kernel
  · rw [hbody']
    exact ((hread _ _ hcut).2 ⟨'w', by decide, by decide⟩).mpr
      (.inr ⟨_, List.mem_cons_self, hwidget⟩)

/-- The long `s` is taken for a letter: in plain letters the text says nothing, but a type is read. -/
theorem Argument.long_s_taken_for_letter :
    Cut "ſtring".toList ["ſtring".toList] ∧
      (∀ q, ¬ Manner.plain.Spells (Text.trim "ſtring".toList) q) ∧
      ofDeclaration "value (ſtring)" "" =
        .ok ⟨"value", "", [.scalar .string], false, false, none⟩ := by
  refine ⟨.last (by decide), fun q h => ?_, by decide +kernel⟩
  generalize hcs : Text.trim "ſtring".toList = cs at h
  cases h with
  | optional hword =>
    rw [← hcs] at hword
    exact absurd hword (by decide +kernel)
  | repeating hword =>
    rw [← hcs] at hword
    exact absurd hword (by decide +kernel)
  | fallback hkey hvalue hblank =>
    have hkey := congrArg List.length hkey
    have hcs := congrArg List.length hcs
    rw [List.length_map] at hkey
    rw [List.length_append, hkey] at hcs
    have hlong : (Text.trim "ſtring".toList).length < "default=".toList.length := by decide +kernel
    omega
  | type htag =>
    rename_i t
    rw [← hcs] at htag
    have hall : ∀ u ∈ ArgType.all,
        ((Text.trim "ſtring".toList).filter (· != ' ')).map Char.toUpper ≠ u.tag.toList := by
      decide +kernel
    exact hall t (mem_all t) htag

end SheetFormula
