import SheetFormula.Signature.Declaration

/-!
Cutting the body of a declaration at the commas that stand outside quotes. A comma stands outside where an
even number of quotes comes before it. Every body is cut in one way, and texts that are joined by commas
are cut again into the same texts if each closes its quotes and has no comma outside them.
-/

set_option autoImplicit false

namespace SheetFormula.Declaration

/-- No comma stands outside quotes: before each, a quote is open. -/
def CommasQuoted (s : List Char) : Prop :=
  ∀ before after, s = before ++ ',' :: after → before.count '"' % 2 = 1

/-- Every quote that opens is closed, and no comma stands outside them. -/
def Closed (s : List Char) : Prop :=
  s.count '"' % 2 = 0 ∧ CommasQuoted s

/-- A text of one line that can stand between commas. -/
def Contained (s : List Char) : Prop :=
  '\n' ∉ s ∧ Closed s

/-- The texts into which a body is cut at the commas outside quotes. -/
inductive Cut : List Char → List (List Char) → Prop
  | last {s : List Char} (h : CommasQuoted s) : Cut s [s]
  | comma {s body : List Char} {texts : List (List Char)} (h : Closed s) (rest : Cut body texts) :
    Cut (s ++ ',' :: body) (s :: texts)

/-- A comma in two texts together is in the second or in the first. -/
theorem comma_of_append {s t before after : List Char} (h : s ++ t = before ++ ',' :: after) :
    (∃ middle, before = s ++ middle ∧ t = middle ++ ',' :: after) ∨
      ∃ middle, s = before ++ ',' :: middle := by
  obtain hright | ⟨middle, hleft, hcomma⟩ := List.append_eq_append_iff.mp h
  · exact .inl hright
  · obtain ⟨rfl, ht⟩ | ⟨more, rfl, -⟩ := List.append_eq_cons_iff.mp hcomma.symm
    · exact .inl ⟨[], by simpa using hleft.symm, ht⟩
    · exact .inr ⟨more, hleft⟩

theorem Closed.append {s t : List Char} (hs : Closed s) (ht : Closed t) : Closed (s ++ t) := by
  obtain ⟨hs, hcommas⟩ := hs
  obtain ⟨ht, hcommas'⟩ := ht
  refine ⟨by rw [List.count_append]; omega, fun before after hcomma => ?_⟩
  obtain ⟨middle, rfl, hright⟩ | ⟨middle, hleft⟩ := comma_of_append hcomma
  · have hodd := hcommas' middle after hright
    rw [List.count_append]
    omega
  · exact hcommas before middle hleft

theorem closed_of_forall {s : List Char} (h : ∀ c ∈ s, c ≠ '"' ∧ c ≠ ',') : Closed s := by
  refine ⟨?_, ?_⟩
  · rw [List.count_eq_zero_of_not_mem fun hmem => (h _ hmem).1 rfl]
  · rintro before after rfl
    exact absurd rfl (h ',' (by simp)).2

/-- Whether a quote is open after a text, if one is open before it or not. -/
def quotedAfter (quoted : Bool) (s : List Char) : Bool :=
  quoted ^^ decide (s.count '"' % 2 = 1)

theorem quotedAfter_cons (quoted : Bool) (c : Char) (s : List Char) :
    quotedAfter quoted (c :: s) = quotedAfter (if c = '"' then !quoted else quoted) s := by
  by_cases hc : c = '"'
  · subst hc
    rw [if_pos rfl, quotedAfter, quotedAfter, List.count_cons_self]
    have hparity : ((s.count '"' + 1) % 2 = 1) = ¬ (s.count '"' % 2 = 1) := by
      rw [eq_iff_iff]
      omega
    simp only [hparity, decide_not, Bool.xor_not, Bool.not_xor]
  · rw [if_neg hc, quotedAfter, quotedAfter, List.count_cons_of_ne hc]

theorem splitParts_ne_nil (quoted : Bool) (s : List Char) : splitParts quoted s ≠ [] := by
  cases s with
  | nil => simp [splitParts]
  | cons c s =>
    rw [splitParts]
    split
    · simp
    · split <;> simp

theorem splitParts_cons {quoted : Bool} {c : Char} (h : c = ',' → quoted = true) (s : List Char) :
    splitParts quoted (c :: s) =
      (splitParts (if c = '"' then !quoted else quoted) s).modifyHead (c :: ·) := by
  rw [splitParts, if_neg (by simpa using h)]
  cases hparts : splitParts (if c = '"' then !quoted else quoted) s with
  | nil => exact absurd hparts (splitParts_ne_nil _ s)
  | cons part parts => rfl

/-- A text in which no comma stands outside quotes is kept in one piece. -/
theorem splitParts_append {quoted : Bool} {s : List Char}
    (h : ∀ before after, s = before ++ ',' :: after → quotedAfter quoted before = true)
    (rest : List Char) :
    splitParts quoted (s ++ rest) =
      (splitParts (quotedAfter quoted s) rest).modifyHead (s ++ ·) := by
  induction s generalizing quoted with
  | nil =>
    cases hparts : splitParts quoted rest <;> simp [quotedAfter, hparts]
  | cons c s ih =>
    have hc : c = ',' → quoted = true := by
      rintro rfl
      simpa [quotedAfter] using h [] s rfl
    have hs : ∀ before after, s = before ++ ',' :: after →
        quotedAfter (if c = '"' then !quoted else quoted) before = true := by
      rintro before after rfl
      rw [← quotedAfter_cons]
      exact h (c :: before) after rfl
    rw [List.cons_append, splitParts_cons hc, ih hs, quotedAfter_cons, List.modifyHead_modifyHead]
    rfl

theorem CommasQuoted.quotedAfter {s : List Char} (h : CommasQuoted s) :
    ∀ before after, s = before ++ ',' :: after → quotedAfter false before = true := by
  intro before after hs
  simp [Declaration.quotedAfter, h before after hs]

theorem Cut.splitParts_eq {body : List Char} {texts : List (List Char)} (h : Cut body texts) :
    splitParts false body = texts := by
  induction h with
  | last h =>
    rename_i s
    have hsplit := splitParts_append h.quotedAfter []
    rw [List.append_nil] at hsplit
    rw [hsplit, splitParts, List.modifyHead_cons, List.append_nil]
  | comma h rest ih =>
    rename_i s body texts
    have hclosed : quotedAfter false s = false := by simp [quotedAfter, h.1]
    rw [splitParts_append h.2.quotedAfter, hclosed, splitParts, if_pos (by simp), ih,
      List.modifyHead_cons, List.append_nil]

/-- The first comma outside quotes, if there is one. -/
theorem commasQuoted_or_exists (s : List Char) :
    CommasQuoted s ∨ ∃ t rest, s = t ++ ',' :: rest ∧ Closed t := by
  -- the scan has come as far as `seen` and has found none
  suffices hscan : ∀ seen rest : List Char, CommasQuoted seen →
      CommasQuoted (seen ++ rest) ∨ ∃ t more, seen ++ rest = t ++ ',' :: more ∧ Closed t by
    exact hscan [] s (by simp [CommasQuoted])
  intro seen rest hseen
  induction rest generalizing seen with
  | nil => exact .inl (by rwa [List.append_nil])
  | cons c rest ih =>
    by_cases hcomma : c = ',' ∧ seen.count '"' % 2 = 0
    · obtain ⟨rfl, heven⟩ := hcomma
      exact .inr ⟨seen, rest, rfl, heven, hseen⟩
    · rw [← List.singleton_append, ← List.append_assoc]
      refine ih (seen ++ [c]) fun before after hsplit => ?_
      obtain ⟨middle, rfl, hlast⟩ | ⟨middle, hearlier⟩ := comma_of_append hsplit
      · obtain ⟨rfl, hc⟩ | ⟨more, rfl, hnil⟩ := List.append_eq_cons_iff.mp hlast.symm
        · have hodd : ¬ seen.count '"' % 2 = 0 := fun heven =>
            hcomma ⟨(List.cons.inj hc).1.symm, heven⟩
          rw [List.append_nil]
          omega
        · simp at hnil
      · exact hseen before middle hearlier

theorem exists_cut (body : List Char) : ∃ texts, Cut body texts := by
  induction hlength : body.length using Nat.strongRecOn generalizing body with
  | ind n ih =>
    obtain hquoted | ⟨s, rest, rfl, hclosed⟩ := commasQuoted_or_exists body
    · exact ⟨[body], .last hquoted⟩
    · have hshorter : rest.length < n := by
        rw [← hlength, List.length_append, List.length_cons]
        omega
      obtain ⟨texts, htexts⟩ := ih rest.length hshorter rest rfl
      exact ⟨s :: texts, .comma hclosed htexts⟩

theorem cut_intercalate {texts : List (List Char)} (hne : texts ≠ [])
    (h : ∀ s ∈ texts, Closed s) : Cut ([','].intercalate texts) texts := by
  induction texts with
  | nil => exact absurd rfl hne
  | cons s texts ih =>
    obtain ⟨hs, htexts⟩ := List.forall_mem_cons.mp h
    cases texts with
    | nil => simpa [List.intercalate] using Cut.last hs.2
    | cons t texts =>
      rw [List.intercalate_cons_cons, List.append_assoc, List.singleton_append]
      exact .comma hs (ih (List.cons_ne_nil _ _) htexts)

theorem commasQuoted_iff {s : List Char} : CommasQuoted s ↔ splitParts false s = [s] := by
  refine ⟨fun h => (Cut.last h).splitParts_eq, fun h => ?_⟩
  obtain hquoted | ⟨t, rest, rfl, hclosed⟩ := commasQuoted_or_exists s
  · exact hquoted
  · obtain ⟨texts, htexts⟩ := exists_cut rest
    rw [(Cut.comma hclosed htexts).splitParts_eq] at h
    cases htexts <;> simp at h

instance : DecidablePred CommasQuoted :=
  fun _ => decidable_of_iff _ commasQuoted_iff.symm

instance : DecidablePred Closed :=
  fun s => inferInstanceAs (Decidable (_ ∧ CommasQuoted s))

instance : DecidablePred Contained :=
  fun s => inferInstanceAs (Decidable (_ ∧ Closed s))

theorem Cut.eq_comma_or_mem {body : List Char} {texts : List (List Char)} (h : Cut body texts)
    {c : Char} (hc : c ∈ body) : c = ',' ∨ ∃ text ∈ texts, c ∈ text := by
  induction h with
  | last h => exact .inr ⟨_, List.mem_cons_self, hc⟩
  | comma h rest ih =>
    rcases List.mem_append.mp hc with hc | hc
    · exact .inr ⟨_, List.mem_cons_self, hc⟩
    · rcases List.mem_cons.mp hc with hc | hc
      · exact .inl hc
      · refine (ih hc).imp_right ?_
        rintro ⟨text, htext, hmem⟩
        exact ⟨text, List.mem_cons_of_mem _ htext, hmem⟩

theorem Cut.exists_subset {body : List Char} {texts : List (List Char)} (h : Cut body texts) :
    ∃ text ∈ texts, text ⊆ body := by
  cases h with
  | last h => exact ⟨_, List.mem_cons_self, List.Subset.refl _⟩
  | comma h rest => exact ⟨_, List.mem_cons_self, List.subset_append_left _ _⟩

end SheetFormula.Declaration
