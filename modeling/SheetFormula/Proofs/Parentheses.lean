import SheetFormula.Proofs.Ungrouping

/-!
The text of a tree has no parentheses too many. The pairs around operands are written down along with the
text. A text with one of them less spells the phrase with one pair less, which is not proper; a phrase is
known by its terminals and its tree, so the shorter text is refused or read as another tree.
-/

set_option autoImplicit false

namespace SheetFormula

/-- A pair of parentheses in a text: what stands before it, in it and after it. -/
structure Pair where
  before : String
  inner : String
  after : String
deriving DecidableEq, Repr

namespace Pair

/-- The text with the pair. -/
def whole (p : Pair) : String :=
  p.before ++ "(" ++ p.inner ++ ")" ++ p.after

/-- The text without the pair. -/
def without (p : Pair) : String :=
  p.before ++ p.inner ++ p.after

/-- The pair in a longer text. -/
def within (front back : String) (p : Pair) : Pair :=
  ⟨front ++ p.before, p.inner, p.after ++ back⟩

@[simp] theorem whole_within (front back : String) (p : Pair) :
    (p.within front back).whole = front ++ p.whole ++ back := by
  simp [whole, within, String.append_assoc]

@[simp] theorem without_within (front back : String) (p : Pair) :
    (p.within front back).without = front ++ p.without ++ back := by
  simp [without, within, String.append_assoc]

end Pair

/-- A text with the pairs of parentheses that are written around operands. -/
structure Inscription where
  text : String
  pairs : List Pair
  whole_eq : ∀ p ∈ pairs, p.whole = text

namespace Inscription

/-- A text without such pairs. -/
def plain (text : String) : Inscription :=
  ⟨text, [], List.forall_mem_nil _⟩

instance : Append Inscription where
  append i j :=
    { text := i.text ++ j.text
      pairs := i.pairs.map (.within "" j.text) ++ j.pairs.map (.within i.text "")
      whole_eq := by
        simp only [List.forall_mem_append, List.forall_mem_map, Pair.whole_within, String.empty_append,
          String.append_empty]
        exact ⟨fun p hp => by rw [i.whole_eq p hp], fun p hp => by rw [j.whole_eq p hp]⟩ }

/-- An operand in parentheses where they are needed. -/
def operand (needed : Bool) (i : Inscription) : Inscription :=
  if needed then
    { text := "(" ++ i.text ++ ")"
      pairs := ⟨"", i.text, ""⟩ :: i.pairs.map (.within "(" ")")
      whole_eq := by
        simp only [List.forall_mem_cons, List.forall_mem_map, Pair.whole_within]
        exact ⟨by simp [Pair.whole], fun p hp => by rw [i.whole_eq p hp]⟩ }
  else i

/-- A text with the debugger's mark, if the node has one. The parentheses that keep an operation together
are none around an operand. -/
def mark (debug operation : Bool) (i : Inscription) : Inscription :=
  if debug then plain "?" ++ if operation then plain "(" ++ i ++ plain ")" else i else i

/-- Texts with a separator between them. -/
def join (separator : String) : List Inscription → Inscription
  | [] => plain ""
  | [i] => i
  | i :: j :: rest => i ++ plain separator ++ join separator (j :: rest)

/-! What the texts are, and what they are with a pair less. -/

variable {i j : Inscription} {p : Pair}

@[simp] theorem text_plain (text : String) : (plain text).text = text := rfl

@[simp] theorem text_append (i j : Inscription) : (i ++ j).text = i.text ++ j.text := rfl

theorem text_operand (needed : Bool) (i : Inscription) :
    (operand needed i).text = Expr.parenthesize needed i.text := by
  cases needed <;> rfl

theorem text_mark (debug operation : Bool) (i : Inscription) :
    (mark debug operation i).text = Expr.markText debug operation i.text := by
  cases debug <;> cases operation <;> rfl

theorem text_join (separator : String) (is : List Inscription) :
    (join separator is).text = separator.intercalate (is.map text) := by
  fun_induction join separator is with
  | case1 => rfl
  | case2 i => exact String.intercalate_singleton.symm
  | case3 i j rest ih =>
    rw [text_append, text_append, ih]
    exact String.intercalate_cons_cons.symm

theorem not_mem_pairs_plain (text : String) : p ∉ (plain text).pairs :=
  List.not_mem_nil

theorem without_of_append (h : p ∈ (i ++ j).pairs) :
    (∃ q ∈ i.pairs, p.without = q.without ++ j.text) ∨ ∃ q ∈ j.pairs, p.without = i.text ++ q.without := by
  obtain h | h := List.mem_append.mp h
  · obtain ⟨q, hq, rfl⟩ := List.mem_map.mp h
    exact .inl ⟨q, hq, by simp⟩
  · obtain ⟨q, hq, rfl⟩ := List.mem_map.mp h
    exact .inr ⟨q, hq, by simp⟩

theorem without_of_operand {needed : Bool} (h : p ∈ (operand needed i).pairs) :
    (needed = true ∧ p.without = i.text) ∨
      ∃ q ∈ i.pairs, p.without = Expr.parenthesize needed q.without := by
  cases needed with
  | false => exact .inr ⟨p, h, rfl⟩
  | true =>
    obtain rfl | h := List.mem_cons.mp h
    · exact .inl ⟨rfl, by simp [Pair.without]⟩
    · obtain ⟨q, hq, rfl⟩ := List.mem_map.mp h
      exact .inr ⟨q, hq, by simp [Expr.parenthesize]⟩

theorem without_of_between {front back : String} (h : p ∈ (plain front ++ i ++ plain back).pairs) :
    ∃ q ∈ i.pairs, p.without = front ++ q.without ++ back := by
  obtain ⟨q, hq, hwithout⟩ | ⟨q, hq, -⟩ := without_of_append h
  · obtain ⟨r, hr, -⟩ | ⟨r, hr, hwithout'⟩ := without_of_append hq
    · exact absurd hr (not_mem_pairs_plain _)
    · refine ⟨r, hr, ?_⟩
      rw [hwithout, hwithout']
      rfl
  · exact absurd hq (not_mem_pairs_plain _)

theorem without_of_mark {debug operation : Bool} (h : p ∈ (mark debug operation i).pairs) :
    ∃ q ∈ i.pairs, p.without = Expr.markText debug operation q.without := by
  cases debug with
  | false => exact ⟨p, h, rfl⟩
  | true =>
    obtain ⟨q, hq, -⟩ | ⟨q, hq, hwithout⟩ := without_of_append h
    · exact absurd hq (not_mem_pairs_plain _)
    · cases operation with
      | false => exact ⟨q, hq, hwithout⟩
      | true =>
        obtain ⟨r, hr, hwithout'⟩ := without_of_between hq
        refine ⟨r, hr, ?_⟩
        rw [hwithout, hwithout']
        rfl

theorem without_of_join {separator : String} {is : List Inscription}
    (h : p ∈ (join separator is).pairs) :
    ∃ before i after, is = before ++ i :: after ∧ ∃ q ∈ i.pairs,
      p.without = separator.intercalate (before.map text ++ q.without :: after.map text) := by
  fun_induction join separator is generalizing p with
  | case1 => exact absurd h (not_mem_pairs_plain _)
  | case2 i => exact ⟨[], i, [], rfl, p, h, String.intercalate_singleton.symm⟩
  | case3 i j rest ih =>
    obtain ⟨q, hq, hwithout⟩ | ⟨q, hq, hwithout⟩ := without_of_append h
    · obtain ⟨q', hq', hwithout'⟩ | ⟨q', hq', -⟩ := without_of_append hq
      · refine ⟨[], i, j :: rest, rfl, q', hq', ?_⟩
        rw [hwithout, hwithout', text_join]
        exact String.intercalate_cons_cons.symm
      · exact absurd hq' (not_mem_pairs_plain _)
    · obtain ⟨before, k, after, hrest, q', hq', hwithout'⟩ := ih hq
      refine ⟨i :: before, k, after, by rw [hrest]; rfl, q', hq', ?_⟩
      rw [hwithout, hwithout', List.map_cons, List.cons_append,
        String.intercalate_cons_of_ne_nil (by simp)]
      rfl

end Inscription

namespace Expr

open Inscription (plain operand mark join text_plain text_append text_operand text_mark text_join)

mutual

/-- The text of an expression with its pairs of parentheses. -/
def inscription : Expr → Inscription
  | .leaf l a => plain (markText l.debug false (atomText l.text a))
  | .unary l suffix e =>
    mark l.debug true
      (if suffix then operand (suffixedNeedsParens e) (inscription e) ++ plain l.text
       else plain l.text ++ operand (signedNeedsParens e) (inscription e))
  | .binary l a b =>
    mark l.debug true
      (operand (leftNeedsParens l.text a) (inscription a) ++ plain l.text ++
        operand (rightNeedsParens l.text b) (inscription b))
  | .call l as => mark l.debug false (plain (l.text ++ "(") ++ join "," (inscriptions as) ++ plain ")")
  | .array l rs =>
    mark l.debug false (plain "\x7b" ++ join ";" (inscriptionRows rs) ++ plain "\x7d")

def inscriptions : List Expr → List Inscription
  | [] => []
  | e :: es => inscription e :: inscriptions es

def inscriptionRows : List (List Expr) → List Inscription
  | [] => []
  | r :: rs => join "," (inscriptions r) :: inscriptionRows rs

end

/-- The pairs of parentheses that the text of an expression has around operands. -/
def pairs (e : Expr) : List Pair :=
  e.inscription.pairs

theorem inscriptions_eq_map (es : List Expr) : inscriptions es = es.map inscription := by
  induction es with
  | nil => rfl
  | cons e es ih => rw [inscriptions, ih, List.map_cons]

theorem inscriptionRows_eq_map (rs : List (List Expr)) :
    inscriptionRows rs = rs.map fun r => join "," (r.map inscription) := by
  induction rs with
  | nil => rfl
  | cons r rs ih => rw [inscriptionRows, ih, inscriptions_eq_map, List.map_cons]

/-- The text is the formula. -/
theorem text_inscription (e : Expr) : e.inscription.text = e.toFormula := by
  induction e with
  | leaf l a => rw [inscription, toFormula, text_plain]
  | unary l suffix e ih =>
    rw [inscription, toFormula, text_mark]
    cases suffix <;> simp [text_operand, ih]
  | binary l a b iha ihb =>
    rw [inscription, toFormula, text_mark]
    simp [text_operand, iha, ihb]
  | call l as ih =>
    have hmap : (as.map inscription).map Inscription.text = as.map toFormula := by
      rw [List.map_map]
      exact List.map_congr_left ih
    rw [inscription, toFormula, text_mark]
    simp only [text_append, text_plain, text_join, inscriptions_eq_map, hmap, formulas_eq_map]
  | array l rs ih =>
    have hmap : (rs.map fun r => join "," (r.map inscription)).map Inscription.text =
        rs.map fun r => ",".intercalate (r.map toFormula) := by
      rw [List.map_map]
      refine List.map_congr_left fun r hr => ?_
      rw [Function.comp_apply, text_join, List.map_map]
      exact congrArg _ (List.map_congr_left (ih r hr))
    rw [inscription, toFormula, text_mark]
    simp only [text_append, text_plain, text_join, inscriptionRows_eq_map, hmap, rowFormulas_eq_map]

theorem whole_of_mem_pairs {e : Expr} {p : Pair} (h : p ∈ e.pairs) : p.whole = e.toFormula :=
  (e.inscription.whole_eq p h).trans (text_inscription e)

/-! ### The shorter texts as phrases -/

open Phrase (Ungroups groupIf attach)

variable {e : Expr} {V : Vocabulary} {p : Pair} {i : Inscription} {d : Phrase}

/-- Each text with a pair less spells the phrase with a pair less. -/
def Tracks (ps : List Pair) (d : Phrase) : Prop :=
  ∀ p ∈ ps, ∃ z, Ungroups d z ∧ z.letters = p.without.toList

/-- The same of an operand, where the pair may be its own. -/
def TracksOperand (ps : List Pair) (d : Phrase) : Prop :=
  ∀ p ∈ ps, ∃ z, (Ungroups d z ∨ d = .group z) ∧ z.letters = p.without.toList

theorem Tracks.mark (h : Tracks i.pairs d) (debug operation : Bool) :
    Tracks (Inscription.mark debug operation i).pairs (Phrase.mark debug operation d) := by
  intro p hp
  obtain ⟨q, hq, hwithout⟩ := Inscription.without_of_mark hp
  obtain ⟨z, hz, hletters⟩ := h q hq
  refine ⟨Phrase.mark debug operation z, ?_, by rw [Phrase.letters_mark _ _ hletters, hwithout]⟩
  cases debug
  · exact hz
  · cases operation
    · exact .inMarked hz
    · exact .inMarked (.inGroup hz)

theorem Tracks.operand (h : Tracks i.pairs d) (hletters : d.letters = i.text.toList) (needed : Bool) :
    TracksOperand (Inscription.operand needed i).pairs (groupIf needed d) := by
  intro p hp
  obtain ⟨rfl, hwithout⟩ | ⟨q, hq, hwithout⟩ := Inscription.without_of_operand hp
  · exact ⟨d, .inr rfl, by rw [hletters, hwithout]⟩
  · obtain ⟨z, hz, hletters⟩ := h q hq
    refine ⟨groupIf needed z, .inl ?_, by rw [Phrase.letters_groupIf _ hletters, hwithout]⟩
    cases needed
    · exact hz
    · exact .inGroup hz

theorem tracks_binary {op : String} {j : Inscription} {r : Phrase} (hi : TracksOperand i.pairs d)
    (hj : TracksOperand j.pairs r) (hd : d.letters = i.text.toList) (hr : r.letters = j.text.toList) :
    Tracks (i ++ plain op ++ j).pairs (attach op d r) := by
  intro p hp
  obtain ⟨q, hq, hwithout⟩ | ⟨q, hq, hwithout⟩ := Inscription.without_of_append hp
  · obtain ⟨q', hq', hwithout'⟩ | ⟨q', hq', -⟩ := Inscription.without_of_append hq
    · obtain ⟨z, hz, hletters⟩ := hi q' hq'
      refine ⟨attach op z r, Phrase.ungroups_attach_left hz op r, ?_⟩
      rw [Phrase.letters_attach, hletters, hr, hwithout, hwithout']
      simp
    · exact absurd hq' (Inscription.not_mem_pairs_plain _)
  · obtain ⟨z, hz, hletters⟩ := hj q hq
    obtain ⟨y, hy, hyield⟩ := Phrase.exists_ungroups_attach op d hz
    refine ⟨y, hy, ?_⟩
    have hparts : y.letters = d.letters ++ (op.toList ++ z.letters) := by
      simp [Phrase.letters, hyield, Terminal.written]
    rw [hparts, hletters, hd, hwithout]
    simp

theorem letters_eq_text (he : e.WellFormed V) : (phrase e).letters = e.inscription.text.toList := by
  rw [letters_phrase he, text_inscription]

theorem map_letters {es : List Expr} (hes : ∀ e ∈ es, e.WellFormed V) :
    (es.map phrase).map Phrase.letters =
      ((es.map inscription).map Inscription.text).map String.toList := by
  simp only [List.map_map]
  exact List.map_congr_left fun e he => letters_eq_text (hes e he)

theorem map_row_letters {rs : List (List Expr)} (hrs : ∀ r ∈ rs, ∀ e ∈ r, e.WellFormed V) :
    ((rs.map (List.map phrase)).map fun r => [','].intercalate (r.map Phrase.letters)) =
      ((rs.map fun r => join "," (r.map inscription)).map Inscription.text).map String.toList := by
  simp only [List.map_map]
  refine List.map_congr_left fun r hr => ?_
  simp only [Function.comp_apply, Inscription.text_join, String.toList_intercalate, map_letters (hrs r hr)]
  rfl

/-- A pair in one of several texts is one in the phrase that it spells. -/
theorem exists_of_mem_join {es : List Expr} (hes : ∀ e ∈ es, e.WellFormed V)
    (h : ∀ e ∈ es, Tracks e.pairs (phrase e)) (hp : p ∈ (join "," (es.map inscription)).pairs) :
    ∃ (before after : List Phrase) (c z : Phrase), es.map phrase = before ++ c :: after ∧ Ungroups c z ∧
      [','].intercalate ((before ++ z :: after).map Phrase.letters) = p.without.toList := by
  obtain ⟨front, i, back, hsplit, q, hq, hwithout⟩ := Inscription.without_of_join hp
  obtain ⟨before, rest, rfl, rfl, hrest⟩ := List.map_eq_append_iff.mp hsplit
  obtain ⟨e, after, rfl, rfl, rfl⟩ := List.map_eq_cons_iff.mp hrest
  simp only [List.forall_mem_append, List.forall_mem_cons] at hes h
  obtain ⟨z, hz, hshorter⟩ := h.2.1 q hq
  refine ⟨before.map phrase, after.map phrase, phrase e, z, by simp, hz, ?_⟩
  rw [hwithout, String.toList_intercalate, List.map_append, List.map_append, List.map_cons, List.map_cons,
    map_letters hes.1, map_letters hes.2.2, hshorter]
  rfl

theorem tracks_pairs (he : e.WellFormed V) : Tracks e.pairs (phrase e) := by
  induction e with
  | leaf l a => exact fun p hp => absurd hp (Inscription.not_mem_pairs_plain _)
  | unary l suffix e ih =>
    obtain ⟨-, hoperand⟩ := (wellFormed_unary _ _ _).mp he
    have htracks := (ih hoperand).operand (letters_eq_text hoperand)
    rw [pairs, inscription, phrase]
    refine Tracks.mark (fun p hp => ?_) _ _
    cases suffix with
    | true =>
      obtain ⟨q, hq, hwithout⟩ | ⟨q, hq, -⟩ := Inscription.without_of_append hp
      · obtain ⟨z, hz, hshorter⟩ := htracks _ q hq
        refine ⟨.suffix l.text z, ?_, by rw [Phrase.letters_suffix, hshorter, hwithout]; simp⟩
        obtain hz | hz := hz
        · exact .inSuffix l.text hz
        · rw [if_pos rfl, hz]
          exact .suffix l.text z
      · exact absurd hq (Inscription.not_mem_pairs_plain _)
    | false =>
      obtain ⟨q, hq, -⟩ | ⟨q, hq, hwithout⟩ := Inscription.without_of_append hp
      · exact absurd hq (Inscription.not_mem_pairs_plain _)
      · obtain ⟨z, hz, hshorter⟩ := htracks _ q hq
        refine ⟨.sign l.text z, ?_, by rw [Phrase.letters_sign, hshorter, hwithout]; simp⟩
        obtain hz | hz := hz
        · exact .inSign l.text hz
        · rw [if_neg (by decide), hz]
          exact .sign l.text z
  | binary l a b iha ihb =>
    obtain ⟨-, ha, hb⟩ := (wellFormed_binary _ _ _).mp he
    have hleft := letters_eq_text ha
    have hright := letters_eq_text hb
    rw [pairs, inscription, phrase]
    refine (tracks_binary ((iha ha).operand hleft _) ((ihb hb).operand hright _) ?_ ?_).mark _ _
    · rw [Phrase.letters_groupIf _ hleft, Inscription.text_operand]
    · rw [Phrase.letters_groupIf _ hright, Inscription.text_operand]
  | call l as ih =>
    obtain ⟨-, has⟩ := (wellFormed_call _ _).mp he
    rw [pairs, inscription, phrase, inscriptions_eq_map, phrases_eq_map]
    refine Tracks.mark (fun p hp => ?_) _ _
    obtain ⟨q, hq, hwithout⟩ := Inscription.without_of_between hp
    obtain ⟨before, after, c, z, hsplit, hz, hshorter⟩ :=
      exists_of_mem_join has (fun e he => ih e he (has e he)) hq
    rw [hsplit]
    refine ⟨_, .inCall l.text before after hz, ?_⟩
    rw [Phrase.letters_call, hshorter, hwithout]
    simp
  | array l rs ih =>
    obtain ⟨-, hrs⟩ := (wellFormed_array _ _).mp he
    rw [pairs, inscription, phrase, inscriptionRows_eq_map, phraseRows_eq_map]
    refine Tracks.mark (fun p hp => ?_) _ _
    obtain ⟨q, hq, hwithout⟩ := Inscription.without_of_between hp
    obtain ⟨front, i, back, hsplit, q', hq', hrows⟩ := Inscription.without_of_join hq
    obtain ⟨above, rest, rfl, rfl, hrest⟩ := List.map_eq_append_iff.mp hsplit
    obtain ⟨r, below, rfl, rfl, rfl⟩ := List.map_eq_cons_iff.mp hrest
    simp only [List.forall_mem_append, List.forall_mem_cons] at ih hrs
    obtain ⟨before, after, c, z, hrow, hz, hshorter⟩ :=
      exists_of_mem_join hrs.2.1 (fun e he => ih.2.1 e he (hrs.2.1 e he)) hq'
    rw [List.map_append, List.map_cons, hrow]
    refine ⟨_, .inArray (above.map (List.map phrase)) (below.map (List.map phrase)) before after hz, ?_⟩
    rw [Phrase.letters_array, hwithout, hrows, List.map_append, List.map_cons, map_row_letters hrs.1,
      map_row_letters hrs.2.2, hshorter]
    simp [String.toList_intercalate]

/-! ### What the shorter texts are read as -/

variable {root slim : Expr} {text : String} {z : Phrase}

/-- The terminals of a text with a pair less. -/
theorem plain_terminals_of_ungroups (hroot : root.IsOperand .written) (hz : Ungroups (phrase root) z)
    (hletters : z.letters = text.toList) :
    (Terminal.ofIndexed .canonical (Terminal.afterEquals (Terminal.significant
      (Token.rangeTokenize .canonical text)))).map Terminal.plain = z.yield := by
  have hproper := proper_phrase hroot.1 hroot.2
  obtain ⟨hchain, hbegins⟩ := hproper.isChain_yield
  have hslims := hz.slims hproper
  have hblend : Blend z.yield text.toList := by
    rw [← hletters]
    exact Blend.flatMap_written _
  have hwords : ∀ t ∈ z.yield, t.HasWord := fun t ht => hasWords_phrase hroot.1 t (hslims.mem ht)
  have hspell := (hblend.spell hwords (hslims.isChain hchain)).body_of_begins (hslims.begins hbegins)
  exact hspell.plain_ofIndexed (hslims.isChain hchain)
    (fun t ht => (hproper.isPart t (hslims.mem ht)).binds) _ (Terminal.map_fst_afterEquals _)

/-- A text with a pair less is refused or has another tree: a phrase is known by its terminals and its
tree, and the one with the pair less is not proper. -/
theorem same_of_ungroups (hroot : root.IsOperand .written) (hz : Ungroups (phrase root) z)
    (hletters : z.letters = text.toList) (hslim : parse ⟨.canonical, none⟩ text = .ok slim) :
    slim.same (phrase root).tree = false := by
  obtain ⟨d, hderives, htree⟩ := Phrase.exists_derives hslim
  have hd := hderives.grammatical.proper
  have hyield : d.yield = z.yield := by
    rw [← hderives.map_plain_ofIndexed]
    exact plain_terminals_of_ungroups hroot hz hletters
  by_contra hsame
  rw [Bool.not_eq_false, ← same_unplaced, htree, ← hz.tree_eq] at hsame
  have htight := hz.tightMarks (proper_phrase hroot.1 hroot.2).tightMarks
  obtain rfl := hd.tightMarks.known htight hyield (same_marked hsame)
  exact not_proper_of_ungroups hroot.1 hz hd

/-- No pair of parentheses around an operand can be left out of the text of a formula that was read: the
shorter text is refused, or its tree does not equal that of the whole text. -/
theorem parentheses_needed {limit : Option Nat} {formula : String} {root : Expr}
    (h : parse ⟨.canonical, limit⟩ formula = .ok root)
    (hclosed : ∀ t ∈ Token.tokenize .canonical formula, t.kind = .string →
      Lexer.isClosedString t.text.toList = true) :
    ∃ again, parse ⟨.canonical, none⟩ root.toFormula = .ok again ∧
      ∀ p ∈ root.pairs, p.whole = root.toFormula ∧
        ∀ slim, parse ⟨.canonical, none⟩ p.without = .ok slim → slim.same again = false := by
  have hroot := isOperand_of_parse h hclosed
  obtain ⟨again, hparse, htree⟩ := (derives_toFormula hroot).exists_ofTokens
  refine ⟨again, hparse, fun p hp => ⟨whole_of_mem_pairs hp, fun slim hslim => ?_⟩⟩
  obtain ⟨z, hz, hletters⟩ := tracks_pairs hroot.1 p hp
  have hdiffer := same_of_ungroups hroot hz hletters hslim
  rwa [← htree, same_comm, same_unplaced, same_comm] at hdiffer

/-- Of a sum, a text in an argument and a difference, each in parentheses. -/
theorem parentheses_needed_of_difference :
    let formula := "=(a+b)*IF(x,-(y&\"z\"))%-(c-d)"
    (∀ t ∈ Token.tokenize .canonical formula, t.kind = .string →
      Lexer.isClosedString t.text.toList = true) ∧
      ∃ root again, parse ⟨.canonical, some 8⟩ formula = .ok root ∧
        root.pairs.map Pair.without = ["a+b*IF(x,-(y&\"z\"))%-(c-d)", "(a+b)*IF(x,-y&\"z\")%-(c-d)",
          "(a+b)*IF(x,-(y&\"z\"))%-c-d"] ∧
        parse ⟨.canonical, none⟩ root.toFormula = .ok again ∧
        ∀ p ∈ root.pairs, p.whole = root.toFormula ∧
          ∀ slim, parse ⟨.canonical, none⟩ p.without = .ok slim → slim.same again = false := by
  intro formula
  have hclosed : ∀ t ∈ Token.tokenize .canonical formula, t.kind = .string →
      Lexer.isClosedString t.text.toList = true := by decide +kernel
  have hpairs : (parse ⟨.canonical, some 8⟩ formula).toOption.map (fun root =>
      root.pairs.map Pair.without) = some ["a+b*IF(x,-(y&\"z\"))%-(c-d)",
        "(a+b)*IF(x,-y&\"z\")%-(c-d)", "(a+b)*IF(x,-(y&\"z\"))%-c-d"] := by decide +kernel
  obtain ⟨root, hroot, hwithout⟩ := exists_ok_of_map hpairs
  obtain ⟨again, hagain⟩ := parentheses_needed hroot hclosed
  exact ⟨hclosed, root, again, hroot, hwithout, hagain⟩

end Expr

end SheetFormula
