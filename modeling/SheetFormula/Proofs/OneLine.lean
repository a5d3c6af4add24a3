import SheetFormula.Proofs.Width

/-!
Formulas on one line. A choice is measured together with the broken forms of all that follows it, and in
the document of a formula these take no more of a line than the flat ones. So a formula is written on one
line as soon as a line has room for it. Where no line has, the outermost choice is broken, unless there is
none: signs, suffixes and marks alone leave nothing to break.
-/

set_option autoImplicit false

namespace SheetFormula

namespace Document

variable {w c : Nat} {a b d f : Document} {s : String}

/-- The text of a document on one line. -/
def oneLine : Document → String
  | .empty => ""
  | .text s => s
  | .line => ""
  | .append a b => a.oneLine ++ b.oneLine
  | .choose f _ => f.oneLine
  | .nest _ d => d.oneLine

theorem length_oneLine (d : Document) : d.oneLine.length = d.width := by
  induction d with
  | append a b iha ihb => rw [oneLine, String.length_append, iha, ihb, width]
  | choose f b ihf ihb => exact ihf
  | nest n d ih => exact ih
  | _ => rfl

theorem not_mem_oneLine (h : d.IsPlain) : '\n' ∉ d.oneLine.toList := by
  induction d with
  | text s => exact h
  | append a b iha ihb =>
    rw [oneLine, String.toList_append, List.mem_append]
    exact not_or.mpr ⟨iha h.1, ihb h.2⟩
  | choose f b ihf ihb => exact ihf h.1
  | nest n d ih => exact ih h
  | _ => exact List.not_mem_nil

theorem Page.write_empty (page : Page) : page.write "" = page := by
  simp [Page.write]

theorem Page.write_write (page : Page) (s r : String) :
    (page.write s).write r = page.write (s ++ r) := by
  simp [Page.write, String.append_assoc, Int.add_assoc]

/-- In a flat document all is written on one line. -/
theorem write_eq_oneLine (d : Document) (columns indent : Int) (rest : List Pending) (page : Page) :
    d.write columns indent true rest page = page.write d.oneLine := by
  induction d generalizing indent rest page with
  | empty => exact page.write_empty.symm
  | text s => rfl
  | line => exact page.write_empty.symm
  | append a b iha ihb => rw [write, iha, ihb, Page.write_write, oneLine]
  | choose f b ihf ihb => exact ihf indent rest page
  | nest n d ih => exact ih (indent + n) rest page

/-! ### Lines with room -/

theorem Even.fitsAll_cons {n : Nat} {rest : List Pending} (h : Even w d) (hroom : d.width ≤ n)
    (hrest : fitsAll rest (n - d.width) = true) : fitsAll (⟨false, d⟩ :: rest) n = true := by
  rcases h.first n hroom with hfirst | hfirst
  · simp only [fitsAll, hfirst]
  · simpa only [fitsAll, hfirst] using hrest

/-- The document is written on one line wherever that has room for it and for the first line of what
follows. -/
structure Straight (w : Nat) (d : Document) : Prop extends Even w d where
  write : ∀ (indent : Int) {rest : List Pending} {page : Page} {c : Nat}, page.column = c →
    c + d.width ≤ w → fitsAll rest (w - (c + d.width)) = true →
    d.write w indent false rest page = page.write d.oneLine

theorem straight_text (hs : '\n' ∉ s.toList) (w : Nat) : Straight w (.text s) where
  toEven := even_text hs w
  write _ _ _ _ _ _ _ := rfl

theorem Straight.append (ha : Straight w a) (hb : Straight w b) : Straight w (a ++ b) where
  toEven := ha.toEven.append hb.toEven
  write indent rest page c hcolumn hroom hrest := by
    have hroom : c + (a.width + b.width) ≤ w := hroom
    have hrest : fitsAll rest (w - (c + (a.width + b.width))) = true := hrest
    rw [← Nat.add_assoc] at hrest
    -- broken up, `b` takes no more of the line than the room that is kept for it on one line
    have hnext : fitsAll (⟨false, b⟩ :: rest) (w - (c + a.width)) = true :=
      hb.fitsAll_cons (by omega) (by rwa [Nat.sub_sub])
    have hfirst := ha.write indent hcolumn (by omega) hnext
    have hcolumn : (page.write a.oneLine).column = (c + a.width : Nat) := by
      rw [Page.write, hcolumn, length_oneLine, Int.natCast_add]
    have hsecond := hb.write indent hcolumn (by omega) hrest
    change b.write w indent false rest (a.write w indent false (⟨false, b⟩ :: rest) page) = _
    rw [hfirst, hsecond, Page.write_write]
    rfl

/-- A choice is taken flat where the line has room for it. -/
theorem Even.straight (hw : (w : Int) ≤ Word.greatest) (h : Even w (.choose f b)) :
    Straight w (.choose f b) where
  toEven := h
  write indent rest page c hcolumn hroom hrest := by
    have hroom : c + f.width ≤ w := hroom
    have hfits := (fits_iff hw (by omega) f rest).mpr ⟨hroom, hrest⟩
    rw [Document.write, hcolumn, hfits, Bool.or_true, if_pos rfl, write_eq_oneLine]
    rfl

/-! ### Lines without room -/

/-- What has been written stays. -/
theorem mem_write {x : Char} (d : Document) (columns indent : Int) (flat : Bool) (rest : List Pending)
    {page : Page} (h : x ∈ page.text.toList) :
    x ∈ (d.write columns indent flat rest page).text.toList := by
  induction d generalizing indent flat rest page with
  | empty => exact h
  | text s => simp [write, Page.write, h]
  | line =>
    rw [write]
    split
    · exact h
    · unfold Page.breakLine
      split <;> simp [h]
  | append a b iha ihb => exact ihb _ _ _ (iha _ _ _ h)
  | choose f b ihf ihb =>
    rw [write]
    split
    · exact ihf _ _ _ h
    · exact ihb _ _ _ h
  | nest n d ih => exact ih _ _ _ h

/-- The document breaks the line. -/
def Breaking (d : Document) : Prop :=
  ∀ (columns indent : Int) (rest : List Pending) (page : Page),
    '\n' ∈ (d.write columns indent false rest page).text.toList

theorem breaking_line : Breaking .line := by
  intro columns indent rest page
  rw [write, if_neg (by decide)]
  unfold Page.breakLine
  split <;> simp

theorem Breaking.append_left (h : a.Breaking) (b : Document) : (a ++ b).Breaking :=
  fun columns indent rest page => mem_write b columns indent false rest (h columns indent (⟨false, b⟩ :: rest) page)

theorem Breaking.append_right (a : Document) (h : b.Breaking) : (a ++ b).Breaking :=
  fun columns indent rest page =>
    h columns indent rest (a.write columns indent false (⟨false, b⟩ :: rest) page)

theorem Breaking.nest (h : d.Breaking) (n : Int) : (Document.nest n d).Breaking :=
  fun columns indent rest page => h columns (indent + n) rest page

/-- The document breaks the line wherever that has no room for it and for what follows, which takes `more`
columns. -/
def BreaksIfLong (w : Nat) (d : Document) : Prop :=
  ∀ (indent : Int) (rest : List Pending) (page : Page) (c more : Nat), page.column = c →
    (c + d.width : Int) ≤ Word.greatest → (∀ n, fitsAll rest n = true → more ≤ n) →
    w < c + d.width + more → '\n' ∈ (d.write w indent false rest page).text.toList

theorem BreaksIfLong.text_append (h : BreaksIfLong w d) (s : String) : BreaksIfLong w (text s ++ d) := by
  intro indent rest page c more hcolumn hword hrest hlong
  have hwidth : (text s ++ d).width = s.length + d.width := rfl
  rw [hwidth] at hword hlong
  push_cast at hword
  refine h indent rest (page.write s) (c + s.length) more ?_ ?_ hrest (by omega)
  · rw [Page.write, hcolumn, Int.natCast_add]
  · push_cast
    omega

theorem BreaksIfLong.append_text (h : BreaksIfLong w d) (s : String) : BreaksIfLong w (d ++ text s) := by
  intro indent rest page c more hcolumn hword hrest hlong
  have hwidth : (d ++ text s).width = d.width + s.length := rfl
  rw [hwidth] at hword hlong
  push_cast at hword
  refine mem_write (text s) w indent false rest (h indent (⟨false, text s⟩ :: rest) page c
    (s.length + more) hcolumn (by omega) (fun n hn => ?_) (by omega))
  rw [fitsAll_text, Bool.and_eq_true, decide_eq_true_eq] at hn
  have := hrest _ hn.2
  omega

/-- A choice is broken where the line has no room for its flat form. -/
theorem Breaking.breaksIfLong (hw : (w : Int) ≤ Word.greatest) (h : b.Breaking) :
    BreaksIfLong w (.choose f b) := by
  intro indent rest page c more hcolumn hword hrest hlong
  have hword : (c + f.width : Int) ≤ Word.greatest := hword
  have hlong : w < c + f.width + more := hlong
  have hfits : ¬ fits (Word.wrap ((w : Int) - c)) f rest = true := by
    intro hfits
    -- the column is a word, so that the room left does not wrap around to a positive one
    have hwrap : Word.wrap ((w : Int) - c) = w - c := by
      apply Word.wrap_eq_self
      · have : Word.least = -Word.greatest - 1 := by decide
        omega
      · omega
    have hle : c ≤ w := by
      rw [fits, hwrap, Bool.and_eq_true, decide_eq_true_eq] at hfits
      omega
    obtain ⟨hroom, hafter⟩ := (fits_iff hw hle f rest).mp hfits
    have := hrest _ hafter
    omega
  rw [write, hcolumn, Bool.false_or, if_neg hfits]
  exact h w indent rest page

/-! ### Lines that nothing can break -/

/-- The document is written on one line anywhere. -/
def IsFirm (d : Document) : Prop :=
  ∀ (columns indent : Int) (rest : List Pending) (page : Page),
    d.write columns indent false rest page = page.write d.oneLine

theorem isFirm_text (s : String) : IsFirm (.text s) :=
  fun _ _ _ _ => rfl

theorem IsFirm.append (ha : a.IsFirm) (hb : b.IsFirm) : (a ++ b).IsFirm := by
  intro columns indent rest page
  change b.write columns indent false rest (a.write columns indent false (⟨false, b⟩ :: rest) page) = _
  rw [ha, hb, Page.write_write]
  rfl

end Document

/-- A leaf or a call without arguments, behind signs, suffixes and marks. -/
def Expr.isSolid : Expr → Bool
  | .leaf _ _ => true
  | .unary _ _ e => isSolid e
  | .binary _ _ _ => false
  | .call _ as => as.isEmpty
  | .array _ _ => false

namespace Style

open Document

variable {style : Style} {w : Nat} {e : Expr}

theorem inherited_straight (style : Style) (hw : (w : Int) ≤ Word.greatest) :
    Inherited style (Straight w) where
  before hs h := (straight_text hs w).append h
  after hs h := h.append (straight_text hs w)
  text hs := straight_text hs w
  operation hop hleft hright := (even_operation hop hleft.toEven hright.toEven).straight hw
  call {name ds} hname h := by
    have heven : Even w (style.call name ds) := even_call hname fun d hd => (h d hd).toEven
    cases ds with
    | nil => exact straight_text (by simpa using hname) w
    | cons d ds => exact heven.straight hw
  array h :=
    have hrows := List.forall_mem_map.mpr fun r hr =>
      Even.join (even_text (by decide) w) fun d hd => (h r hr d hd).toEven
    (even_bracketed (by decide) (by decide) (by decide) hrows hrows).straight hw

theorem wraps_isFirm : Wraps IsFirm where
  before _ h := (isFirm_text _).append h
  after _ h := h.append (isFirm_text _)

theorem isFirm_document (h : e.WellFormed .callable) (hsolid : e.isSolid = true) (style : Style) :
    (style.document e).IsFirm := by
  induction e with
  | leaf l a =>
    rw [document]
    exact wraps_isFirm.mark (isFirm_text _) _ _
  | unary l suffix e ih =>
    exact wraps_isFirm.unary (not_mem_of_wellFormed_unary h) suffix
      (ih ((Expr.wellFormed_unary _ _ _).mp h).2 hsolid)
  | binary l a b => cases hsolid
  | call l as =>
    obtain rfl : as = [] := List.isEmpty_iff.mp hsolid
    rw [document]
    exact wraps_isFirm.mark (isFirm_text _) _ _
  | array l rs => cases hsolid

theorem wraps_breaksIfLong : Wraps (BreaksIfLong w) where
  before _ h := h.text_append _
  after _ h := h.append_text _

theorem breaksIfLong_operation (hw : (w : Int) ≤ Word.greatest) (op : String) (left right : Document) :
    BreaksIfLong w (style.operation op left right) := by
  have hlines : (nest style.indent (line ++ right)).Breaking :=
    (breaking_line.append_left right).nest style.indent
  exact ((hlines.append_left .empty).append_right (text (" " ++ op)) |>.append_right left).breaksIfLong hw

theorem breaksIfLong_bracketed (hw : (w : Int) ≤ Word.greatest) (opening closing separator : String)
    (flat broken : List Document) :
    BreaksIfLong w (style.bracketed opening closing separator flat broken) := by
  have hlines : (nest style.indent (line ++ join (breakAfter separator) broken)).Breaking :=
    (breaking_line.append_left _).nest style.indent
  exact ((hlines.append_left _).append_right (text opening)).breaksIfLong hw

theorem breaksIfLong_document (hw : (w : Int) ≤ Word.greatest) (h : e.WellFormed .callable)
    (hsolid : e.isSolid = false) (style : Style) : BreaksIfLong w (style.document e) := by
  induction e with
  | leaf l a => cases hsolid
  | unary l suffix e ih =>
    exact wraps_breaksIfLong.unary (not_mem_of_wellFormed_unary h) suffix
      (ih ((Expr.wellFormed_unary _ _ _).mp h).2 hsolid)
  | binary l a b =>
    rw [document]
    exact wraps_breaksIfLong.mark (breaksIfLong_operation hw _ _ _) _ _
  | call l as =>
    rw [document, documents_eq_map]
    cases as with
    | nil => cases hsolid
    | cons a as => exact wraps_breaksIfLong.mark (breaksIfLong_bracketed hw _ _ _ _ _) _ _
  | array l rs =>
    rw [document]
    exact wraps_breaksIfLong.mark (breaksIfLong_bracketed hw _ _ _ _ _) _ _

theorem page_eq (hpos : 1 ≤ w) (style : Style) (e : Expr) :
    style.page w e =
      let written := (style.document e).write w 0 false [] { text := "", column := 1 }
      { written with text := "=" ++ written.text } := by
  rw [page, if_neg (by omega)]
  rfl

/-- A page on which all is written on one line. -/
theorem page_of_write_eq (hpos : 1 ≤ w) (h : (style.document e).write w 0 false []
      { text := "", column := 1 } = Page.write { text := "", column := 1 } (style.document e).oneLine) :
    style.prettify w e = "=" ++ (style.document e).oneLine ∧ (style.page w e).misplaced = none := by
  rw [prettify, page_eq hpos, h]
  simp [Page.write]

end Style

namespace Expr

/-- A formula that fits on a line is written on it, and so is one that has nothing to break. Any other is
broken, if its text on one line is longer than the width; that the length of the text is a word goes
without saying for a text that can be written. Every line begins where it should unless lines are set in
too far. -/
theorem prettify_on_one_line {reading : Reading} {formula : String} {root : Expr}
    (h : parse reading formula = .ok root)
    (hleaves : ∀ l a, Expr.leaf l a ∈ root.nodes → '\n' ∉ (atomText l.text a).toList)
    (style : Style) (w : Nat) (hpos : 1 ≤ w) (hw : (w : Int) ≤ Word.greatest) :
    let line := "=" ++ (style.document root).oneLine
    '\n' ∉ line.toList ∧
    (line.length ≤ w ∨ root.isSolid = true →
      style.prettify w root = line ∧ (style.page w root).misplaced = none) ∧
    (w < line.length → (line.length : Int) ≤ Word.greatest → root.isSolid = false →
      '\n' ∈ (style.prettify w root).toList ∧
        (style.indent * root.size ≤ Document.greatestIndent →
          (style.page w root).misplaced = none)) := by
  intro line
  have hformed : root.WellFormed .callable := wellFormed_of_ofTokens h
  have hstraight : Document.Straight w (style.document root) :=
    (Style.inherited_straight style hw).document hformed hleaves
  have hlength : line.length = 1 + (style.document root).width := by
    rw [String.length_append, Document.length_oneLine]
    rfl
  refine ⟨?_, ?_, fun hlong hword hsolid => ⟨?_, fun hindent => ?_⟩⟩
  · rw [String.toList_append, List.mem_append]
    exact not_or.mpr ⟨by decide, Document.not_mem_oneLine hstraight.plain⟩
  · rintro (hroom | hsolid)
    · rw [hlength] at hroom
      exact Style.page_of_write_eq hpos (hstraight.write 0 rfl hroom rfl)
    · exact Style.page_of_write_eq hpos (Style.isFirm_document hformed hsolid style _ _ _ _)
  · rw [hlength] at hlong hword
    have hbreak := Style.breaksIfLong_document hw hformed hsolid style 0 []
      { text := "", column := 1 } 1 0 rfl (by simpa using hword) (fun n _ => Nat.zero_le n)
      (by omega)
    rw [Style.prettify, Style.page_eq hpos, String.toList_append, List.mem_append]
    exact .inr hbreak
  · refine Document.misplaced_write (Style.within_document root) (le_refl 0) ?_
    simpa using hindent

/-- Of a call with a sign before it, in nine columns and in eight. -/
theorem prettify_of_signed_call :
    let root : Expr := .unary ⟨"-", false, ⟨1, 7⟩⟩ false
      (.call ⟨"F", false, ⟨2, 7⟩⟩
        [.leaf ⟨"a", false, ⟨4, 4⟩⟩ .symbol, .leaf ⟨"b", false, ⟨6, 6⟩⟩ .symbol])
    parse {} "=-F(a,b)" = .ok root ∧
      (∀ l a, Expr.leaf l a ∈ root.nodes → '\n' ∉ (atomText l.text a).toList) ∧
      Style.prettify {} 9 root = "=-F(a, b)" ∧ '\n' ∈ (Style.prettify {} 8 root).toList := by
  intro root
  have htokens : Token.rangeTokenize .canonical "=-F(a,b)" =
      [⟨.operator, "="⟩, ⟨.operator, "-"⟩, ⟨.symbol, "F"⟩, ⟨.leftParen, "("⟩, ⟨.symbol, "a"⟩,
        ⟨.argSeparator, ","⟩, ⟨.symbol, "b"⟩, ⟨.rightParen, ")"⟩] := by decide +kernel
  have hparse : parse {} "=-F(a,b)" = .ok root := by
    rw [parse, htokens]
    rfl
  have hleaves : ∀ l a, Expr.leaf l a ∈ root.nodes → '\n' ∉ (atomText l.text a).toList := by
    intro l a h
    simp only [root, nodes, nodesOfList, List.cons_append, List.nil_append, List.append_nil,
      List.mem_cons, reduceCtorEq, leaf.injEq, List.not_mem_nil, or_false, false_or] at h
    rcases h with ⟨rfl, rfl⟩ | ⟨rfl, rfl⟩ <;> decide
  have hline : "=" ++ (Style.document {} root).oneLine = "=-F(a, b)" := by decide +kernel
  have hnine := (prettify_on_one_line hparse hleaves {} 9 (by decide) (by decide)).2.1
  have height := (prettify_on_one_line hparse hleaves {} 8 (by decide) (by decide)).2.2
  rw [hline] at hnine height
  exact ⟨hparse, hleaves, (hnine (.inl (by decide))).1, (height (by decide) (by decide) rfl).1⟩

end Expr

end SheetFormula
