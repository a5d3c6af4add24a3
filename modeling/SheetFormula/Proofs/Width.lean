import SheetFormula.Proofs.Fitting
import SheetFormula.Proofs.Layout

/-!
Formulas within a width. In the document of a formula two choices never meet without a text between
them, and what is broken up stands no further right than it did on one line. So no choice is taken too
early: if any way of choosing keeps all lines within the width, so does what is written.
-/

set_option autoImplicit false

namespace SheetFormula

namespace Style

open Document

variable {style : Style} {w : Nat} {d left right : Document}

theorem width_join_cons (separator d d' : Document) (ds : List Document) :
    (join separator (d :: d' :: ds)).width =
      d.width + (separator.width + (join separator (d' :: ds)).width) :=
  rfl

theorem width_spaceAfter (s : String) : (text (s ++ " ")).width = s.length + 1 := by
  rw [width, String.length_append]
  rfl

/-! ### Properties of documents -/

/-- A property that a document keeps when a text is written before or after it. -/
structure Wraps (p : Document → Prop) : Prop where
  before : ∀ {s : String} {d : Document}, '\n' ∉ s.toList → p d → p (text s ++ d)
  after : ∀ {s : String} {d : Document}, '\n' ∉ s.toList → p d → p (d ++ text s)

/-- A property that passes from the parts of a formula to the whole. -/
structure Inherited (style : Style) (p : Document → Prop) : Prop extends Wraps p where
  text : ∀ {s : String}, '\n' ∉ s.toList → p (text s)
  operation : ∀ {op : String} {left right : Document}, '\n' ∉ op.toList → p left → p right →
    p (style.operation op left right)
  call : ∀ {name : String} {ds : List Document}, '\n' ∉ name.toList → (∀ d ∈ ds, p d) →
    p (style.call name ds)
  array : ∀ {rows : List (List Document)}, (∀ r ∈ rows, ∀ d ∈ r, p d) →
    p (style.bracketed "\x7b" "\x7d" ";" (rows.map (join (.text ", ")))
      (rows.map (join (.text ", "))))

namespace Wraps

variable {p : Document → Prop} (hp : Wraps p)

include hp

theorem parenthesize (h : p d) (needed : Bool) : p (Style.parenthesize needed d) := by
  cases needed
  · exact h
  · exact hp.after (by decide) (hp.before (by decide) h)

theorem mark (h : p d) (debug operation : Bool) : p (Style.mark debug operation d) := by
  cases debug
  · exact h
  · cases operation
    · exact hp.before (by decide) h
    · exact hp.after (by decide) (hp.before (by decide) h)

theorem unary {l : Label} (hop : '\n' ∉ l.text.toList) (suffix : Bool) {e : Expr}
    (h : p (style.document e)) : p (style.document (.unary l suffix e)) := by
  rw [document]
  refine hp.mark ?_ _ _
  cases suffix with
  | true => exact hp.after hop (hp.parenthesize h _)
  | false => exact hp.before hop (hp.parenthesize h _)

end Wraps

theorem length_spaced (op : String) : (" " ++ op).length = op.length + 1 := by
  rw [String.length_append]
  exact Nat.add_comm 1 op.length

theorem width_operation (style : Style) (op : String) (left right : Document) :
    (style.operation op left right).width = left.width + (op.length + 2 + right.width) := by
  change left.width + ((" " ++ op ++ " ").length + right.width) = _
  rw [String.length_append, length_spaced]
  rfl

/-! ### Documents of formulas on one line -/

theorem even_operation {op : String} (hop : '\n' ∉ op.toList) (hleft : Even w left)
    (hright : Even w right) : Even w (style.operation op left right) := by
  have hbefore : '\n' ∉ (" " ++ op).toList := by simpa using hop
  have haround : '\n' ∉ (" " ++ op ++ " ").toList := by simpa using hop
  refine Even.choose ⟨⟨hleft.plain, haround, hright.plain, trivial⟩,
    hleft.plain, hbefore, ⟨trivial, hright.plain⟩, trivial⟩ fun n hn => ?_
  have hn := (width_operation style op left right).symm.trans_le hn
  refine .inl (hleft.room_append (by omega) ((even_text hbefore w).room_append ?_ rfl))
  rw [width, length_spaced]
  omega

theorem room_breakAfter (s : String) {n : Nat} (h : s.length ≤ n) (d : Document) :
    room false (breakAfter s ++ d) n = .broken := by
  change room false (.append (.append (.text s) .line) d) n = .broken
  simp [room, h]

theorem even_group {ds : List Document} (h : ∀ d ∈ ds, Even w d) : Even w (group ds) := by
  have hflat : (join (text ", ") ds).IsPlain := (Even.join (even_text (by decide) w) h).plain
  have hcomma : '\n' ∉ ",".toList := by decide
  have hbroken : (join (breakAfter ",") ds).IsPlain :=
    isPlain_join ⟨hcomma, trivial⟩ fun d hd => (h d hd).plain
  refine Even.choose ⟨hflat, hbroken⟩ fun n hn => ?_
  cases ds with
  | nil => exact .inr rfl
  | cons d ds =>
    obtain ⟨hd, -⟩ := List.forall_mem_cons.mp h
    cases ds with
    | nil => exact hd.first n hn
    | cons d' ds =>
      have hn : d.width + (2 + (join (text ", ") (d' :: ds)).width) ≤ n := hn
      exact .inl (hd.room_append (by omega) (room_breakAfter "," (by change 1 ≤ _; omega) _))

theorem even_bracketed {opening closing separator : String} {flat broken : List Document}
    (hopening : '\n' ∉ opening.toList) (hclosing : '\n' ∉ closing.toList)
    (hseparator : '\n' ∉ separator.toList) (hflat : ∀ d ∈ flat, Even w d)
    (hbroken : ∀ d ∈ broken, Even w d) :
    Even w (style.bracketed opening closing separator flat broken) := by
  have hone : (join (text (separator ++ " ")) flat).IsPlain :=
    (Even.join (even_text (by simpa using hseparator) w) hflat).plain
  have hmany : (join (breakAfter separator) broken).IsPlain :=
    isPlain_join ⟨hseparator, trivial⟩ fun d hd => (hbroken d hd).plain
  refine Even.choose ⟨⟨hopening, hone, hclosing, trivial⟩,
    hopening, ⟨trivial, hmany⟩, trivial, hclosing, trivial⟩ fun n hn => ?_
  have hn : opening.length + ((join (text (separator ++ " ")) flat).width + closing.length) ≤ n := hn
  exact .inl ((even_text hopening w).room_append (by rw [width]; omega) rfl)

theorem even_call {name : String} (hname : '\n' ∉ name.toList) {ds : List Document}
    (h : ∀ d ∈ ds, Even w d) : Even w (style.call name ds) := by
  cases ds with
  | nil => exact even_text (by simpa using hname) w
  | cons d ds =>
    exact even_bracketed (by simpa using hname) (by decide) (by decide) h
      (forall_argumentLines name h fun _ hg => even_group hg)

theorem not_mem_of_isFunctionName {name : String} (h : Literal.isFunctionName name = true) :
    '\n' ∉ name.toList := by
  intro hmem
  simp only [Literal.isFunctionName, Bool.and_eq_true, List.all_eq_true] at h
  exact absurd (h.2 '\n' hmem) (by decide)

theorem not_mem_of_priority {op : String} (h : 0 < Operator.priority op) : '\n' ∉ op.toList := by
  have hall : ∀ op ∈ Terminal.operators, '\n' ∉ op.toList := by decide
  exact hall op (Terminal.mem_operators h)

theorem not_mem_of_wellFormed_unary {l : Label} {suffix : Bool} {e : Expr}
    (h : (Expr.unary l suffix e).WellFormed .callable) : '\n' ∉ l.text.toList := by
  obtain ⟨⟨hop, -⟩, -⟩ := (Expr.wellFormed_unary _ _ _).mp h
  cases suffix with
  | true => exact not_mem_of_priority (Operator.priority_pos_of_isSuffix hop)
  | false => exact not_mem_of_priority (Operator.priority_pos_of_isSign hop)

/-- The document of a formula has every property that is passed on to it. -/
theorem Inherited.document {p : Document → Prop} (hp : Inherited style p) {e : Expr}
    (h : e.WellFormed .callable)
    (hleaves : ∀ l a, Expr.leaf l a ∈ e.nodes → '\n' ∉ (Expr.atomText l.text a).toList) :
    p (style.document e) := by
  induction e with
  | leaf l a =>
    rw [Style.document]
    exact hp.mark (hp.text (hleaves l a List.mem_cons_self)) _ _
  | unary l suffix e ih =>
    have he := ih ((Expr.wellFormed_unary _ _ _).mp h).2 fun l a hmem =>
      hleaves l a (List.mem_cons_of_mem _ hmem)
    exact hp.toWraps.unary (not_mem_of_wellFormed_unary h) suffix he
  | binary l a b iha ihb =>
    obtain ⟨⟨hop, -⟩, ha, hb⟩ := (Expr.wellFormed_binary _ _ _).mp h
    have ha := iha ha fun l a hmem => hleaves l a (by simp [Expr.nodes_binary, hmem])
    have hb := ihb hb fun l a hmem => hleaves l a (by simp [Expr.nodes_binary, hmem])
    rw [Style.document]
    exact hp.mark (hp.operation (not_mem_of_priority hop) (hp.parenthesize ha _)
      (hp.parenthesize hb _)) _ _
  | call l as ih =>
    obtain ⟨⟨hname, -⟩, has⟩ := (Expr.wellFormed_call _ _).mp h
    rw [Style.document, documents_eq_map]
    refine hp.mark (hp.call (not_mem_of_isFunctionName hname)
      (List.forall_mem_map.mpr fun e he => ih e he (has e he) fun l a hmem => hleaves l a ?_)) _ _
    rw [Expr.nodes_call]
    exact List.mem_cons_of_mem _ (List.mem_flatMap.mpr ⟨e, he, hmem⟩)
  | array l rs ih =>
    obtain ⟨-, hrs⟩ := (Expr.wellFormed_array _ _).mp h
    have hcells : ∀ r ∈ rs.map (List.map style.document), ∀ d ∈ r, p d := by
      refine List.forall_mem_map.mpr fun r hr => List.forall_mem_map.mpr fun e he =>
        ih r hr e he (hrs r hr e he) fun l a hmem => hleaves l a ?_
      rw [Expr.nodes_array]
      exact List.mem_cons_of_mem _
        (List.mem_flatMap.mpr ⟨r, hr, List.mem_flatMap.mpr ⟨e, he, hmem⟩⟩)
    have harray := hp.array hcells
    rw [List.map_map] at harray
    rw [Style.document, rowDocuments_eq_map]
    exact hp.mark harray _ _

/-! ### Documents within a width -/

section Rules

variable (hw : (w : Int) ≤ Word.greatest) (hindent : style.indent ≤ 2)

include hw hindent in
theorem tidy_operation {op : String} (hop : '\n' ∉ op.toList) (hleft : Tidy w left)
    (hright : Tidy w right) : Tidy w (style.operation op left right) := by
  have hbefore : '\n' ∉ (" " ++ op).toList := by simpa using hop
  refine Tidy.choose hw (even_operation hop hleft.toEven hright.toEven) ?_ ?_
  · intro i
    have hbroken : Step w (nest style.indent (line ++ right)) i 0 i i 0 :=
      Step.nest ((step_line hw).append ((hright.step (i + style.indent)).mono
        (le_refl _) (Nat.le_add_right _ _) (Nat.le_add_right _ _) (le_refl _)))
    have hsign : Step w (text (" " ++ op)) i i 0 0 i := step_text hbefore (by omega) (by omega)
    exact (hleft.step i).append (hsign.append (hbroken.append (step_empty (le_refl i) (le_refl i))))
  · intro i c hc hroom
    have hwidth := width_operation style op left right
    rw [operation, width] at hwidth
    rw [hwidth] at hroom ⊢
    refine ⟨i + style.indent + right.width, by omega, c + left.width, hleft.flat _ _ (by omega),
      c + left.width + (op.length + 1), ⟨by rw [length_spaced], by omega⟩,
      i + style.indent + right.width, ⟨i + style.indent, ⟨rfl, by omega⟩, ?_⟩, rfl⟩
    exact hright.flat _ _ (by omega)

/-! ### Documents one under the other -/

omit hindent in
include hw in
theorem step_join {separator : String} (hseparator : '\n' ∉ separator.toList) {ds : List Document}
    (h : ∀ d ∈ ds, Tidy w d) (i : Nat) : Step w (join (breakAfter separator) ds) i i i i (i + 1) := by
  induction ds with
  | nil => exact step_empty (le_refl i) (Nat.le_succ i)
  | cons d ds ih =>
    obtain ⟨hd, hds⟩ := List.forall_mem_cons.mp h
    cases ds with
    | nil => exact hd.step i
    | cons d' ds =>
      have hsign : Step w (text separator) i i 0 0 i := step_text hseparator (by omega) (by omega)
      have hbreak : Step w (breakAfter separator) i i i (i + 1) i := hsign.append (step_line hw)
      exact (hd.step i).append (hbreak.append (ih hds))

/-- Documents that fit on one line can be written one under the other. -/
theorem exists_spans_join (separator : String) {ds : List Document} (h : ∀ d ∈ ds, Even w d) {i c : Nat}
    (hi : i ≤ c) (hroom : c + (join (text (separator ++ " ")) ds).width ≤ w) :
    ∃ c' ≤ c + (join (text (separator ++ " ")) ds).width,
      (join (breakAfter separator) ds).Spans w i c c' := by
  induction ds generalizing c with
  | nil => exact ⟨c, Nat.le_add_right _ _, rfl⟩
  | cons d ds ih =>
    obtain ⟨hd, hds⟩ := List.forall_mem_cons.mp h
    cases ds with
    | nil => exact ⟨_, le_refl _, hd.flat i c hroom⟩
    | cons d' ds =>
      have hwidth : (join (text (separator ++ " ")) (d :: d' :: ds)).width =
          d.width + (separator.length + 1 + (join (text (separator ++ " ")) (d' :: ds)).width) := by
        rw [width_join_cons, width_spaceAfter]
      rw [hwidth] at hroom ⊢
      obtain ⟨c', hc', hspans⟩ := ih hds (le_refl i) (by omega)
      exact ⟨c', by omega, c + d.width, hd.flat i c (by omega), i,
        ⟨c + d.width + separator.length, ⟨rfl, by omega⟩, rfl, by omega⟩, hspans⟩

omit hindent in
include hw in
theorem tidy_group {ds : List Document} (h : ∀ d ∈ ds, Tidy w d) : Tidy w (group ds) := by
  have heven : ∀ d ∈ ds, Even w d := fun d hd => (h d hd).toEven
  exact Tidy.choose hw (even_group heven) (step_join hw (by decide) h) fun i c hc hroom =>
    exists_spans_join "," heven (by omega) hroom

include hw hindent in
theorem tidy_bracketed {opening closing separator : String} {flat broken : List Document}
    (hopening : '\n' ∉ opening.toList) (hlength : 1 ≤ opening.length) (hclosing : '\n' ∉ closing.toList)
    (hseparator : '\n' ∉ separator.toList) (hflat : ∀ d ∈ flat, Tidy w d)
    (hbroken : ∀ d ∈ broken, Tidy w d)
    (hlines : (join (text (separator ++ " ")) broken).width ≤
      (join (text (separator ++ " ")) flat).width) :
    Tidy w (style.bracketed opening closing separator flat broken) := by
  have heven : ∀ d ∈ broken, Even w d := fun d hd => (hbroken d hd).toEven
  refine Tidy.choose hw (even_bracketed hopening hclosing hseparator
    (fun d hd => (hflat d hd).toEven) heven) ?_ ?_
  · intro i
    have hstart : Step w (text opening) i i 0 0 (i + 1) := step_text hopening (by omega) (by omega)
    have hlines : Step w (nest style.indent (line ++ join (breakAfter separator) broken)) i 0 0 0 0 :=
      Step.nest ((step_line hw).append ((step_join hw hseparator hbroken (i + style.indent)).mono
        (le_refl _) (Nat.zero_le _) (Nat.zero_le _) (le_refl _)))
    have hclose : Step w (text closing) i i i i i := step_text hclosing (by omega) (by omega)
    have hend : Step w (line ++ (text closing ++ .empty)) i 0 i i 0 :=
      (step_line hw).append (hclose.append (step_empty (le_refl i) (le_refl i)))
    exact hstart.append (hlines.append hend)
  · intro i c hc hroom
    have hwidth : (concat [text opening, join (text (separator ++ " ")) flat, text closing]).width =
        opening.length + ((join (text (separator ++ " ")) flat).width + closing.length) := rfl
    rw [hwidth] at hroom ⊢
    obtain ⟨c', hc', hspans⟩ := exists_spans_join separator heven (le_refl (i + style.indent))
      (by omega)
    refine ⟨i + closing.length, by omega, c + opening.length, ⟨rfl, by omega⟩, c',
      ⟨i + style.indent, ⟨rfl, by omega⟩, hspans⟩, i, ⟨rfl, by omega⟩, i + closing.length,
      ⟨rfl, by omega⟩, rfl⟩

/-! ### Calls -/

theorem width_join_add {ds : List Document} (h : ds ≠ []) :
    (join (text ", ") ds).width + 2 = (ds.map fun d => d.width + 2).sum := by
  induction ds with
  | nil => exact absurd rfl h
  | cons d ds ih =>
    cases ds with
    | nil => simp [join]
    | cons d' ds =>
      rw [width_join_cons, List.map_cons, List.sum_cons, ← ih (List.cons_ne_nil _ _)]
      change d.width + (2 + _) + 2 = _
      omega

/-- Arguments in groups take as much room, with the separators after them, as they do alone. -/
theorem sum_argumentLines (style : Style) (name : String) (ds : List Document) :
    ((style.argumentLines name ds).map fun d => d.width + 2).sum =
      (ds.map fun d => d.width + 2).sum := by
  obtain ⟨start, size, heq⟩ := exists_argumentLines_eq style name ds
  have hgroups : (((groups size (ds.drop start)).1.map group).map fun d => d.width + 2).sum =
      ((groups size (ds.drop start)).1.flatten.map fun d => d.width + 2).sum := by
    rw [List.map_map, List.map_flatten, List.sum_flatten, List.map_map]
    refine congrArg List.sum (List.map_congr_left fun g hg => ?_)
    exact width_join_add (ne_nil_of_mem_groups _ _ g hg)
  rw [heq, List.map_append, List.sum_append, List.map_append, List.sum_append, hgroups, Nat.add_assoc,
    ← List.sum_append, ← List.map_append, flatten_groups, ← List.sum_append, ← List.map_append,
    List.take_append_drop]

theorem width_join_argumentLines (style : Style) (name : String) {ds : List Document} (h : ds ≠ []) :
    (join (text ", ") (style.argumentLines name ds)).width ≤ (join (text ", ") ds).width := by
  by_cases hnil : style.argumentLines name ds = []
  · rw [hnil]
    exact Nat.zero_le _
  · have hlines := width_join_add hnil
    have hall := width_join_add h
    have hsum := sum_argumentLines style name ds
    omega

include hw hindent in
theorem tidy_call {name : String} (hname : '\n' ∉ name.toList) {ds : List Document}
    (h : ∀ d ∈ ds, Tidy w d) : Tidy w (style.call name ds) := by
  cases ds with
  | nil => exact tidy_text (by simpa using hname) w
  | cons d ds =>
    have hlines : ∀ l ∈ style.argumentLines name (d :: ds), Tidy w l :=
      forall_argumentLines name h fun _ hg => tidy_group hw hg
    refine tidy_bracketed hw hindent (by simpa using hname) ?_ (by decide) (by decide) h hlines ?_
    · rw [String.length_append]
      exact Nat.le_add_left 1 _
    · exact width_join_argumentLines style name (List.cons_ne_nil d ds)

include hw hindent in
theorem inherited_tidy : Inherited style (Tidy w) where
  before hs h := h.text_append hs
  after hs h := h.append_text hs
  text hs := tidy_text hs w
  operation := tidy_operation hw hindent
  call hname hds := tidy_call hw hindent hname hds
  array h :=
    have hrows := List.forall_mem_map.mpr fun r hr => Tidy.join (by decide) (by decide) (h r hr)
    tidy_bracketed hw hindent (by decide) (by decide) (by decide) (by decide) hrows hrows (le_refl _)

include hw hindent in
/-- The document of a formula can be written anywhere right of its margin. -/
theorem tidy_document {e : Expr} (h : e.WellFormed .callable)
    (hleaves : ∀ l a, Expr.leaf l a ∈ e.nodes → '\n' ∉ (Expr.atomText l.text a).toList) :
    Tidy w (style.document e) :=
  (inherited_tidy hw hindent).document h hleaves

end Rules

end Style

namespace Expr

/-- A formula is laid out within the width wherever some way of choosing keeps all lines within it. -/
theorem lines_prettify_le {reading : Reading} {formula : String} {root : Expr}
    (h : parse reading formula = .ok root)
    (hleaves : ∀ l a, Expr.leaf l a ∈ root.nodes → '\n' ∉ (atomText l.text a).toList)
    (style : Style) (hindent : style.indent = 2) (w : Nat) (hpos : 1 ≤ w)
    (hw : (w : Int) ≤ Word.greatest)
    (hlays : ∃ text, (style.document root).Lays false 0 text ∧
      ∀ line ∈ ('=' :: text).splitOn '\n', line.length ≤ w) :
    ∀ line ∈ (style.prettify w root).toList.splitOn '\n', line.length ≤ w := by
  obtain ⟨text, hlays, hlines⟩ := hlays
  have htidy : Document.Tidy w (style.document root) :=
    Style.tidy_document hw hindent.le (wellFormed_of_ofTokens h) hleaves
  have hnarrow : Text.Narrow w 1 text := Text.narrow_iff_splitOn.mpr hlines
  have hbefore : (style.document root).Before w 0 (· ≤ w) 1 :=
    ⟨hnarrow.le, _, hlays.spans htidy.plain hnarrow, hnarrow.column_le⟩
  obtain ⟨_, -, -, hpage, -⟩ := (htidy.step 0).write [] _ (Document.follow_nil w)
    { text := "", column := 1 } 1 ⟨hpos, le_refl 1⟩ rfl (Nat.zero_le 1) hbefore
  have htext : (style.prettify w root).toList = '=' :: ((style.document root).write w 0 false []
      { text := "", column := 1 }).text.toList := by
    rw [Style.prettify, Style.page, if_neg (by omega), String.toList_append]
    rfl
  rw [htext]
  exact Text.narrow_iff_splitOn.mp hpage.narrow

/-- Of two products in a row of an array. In ten columns the first has to be broken, though its line has
room for it, since the line goes on with the second. -/
theorem lines_prettify_of_array :
    let root : Expr := .array ⟨"", false, ⟨1, 9⟩⟩
      [[.binary ⟨"*", false, ⟨2, 4⟩⟩ (.leaf ⟨"a", false, ⟨2, 2⟩⟩ .symbol)
          (.leaf ⟨"b", false, ⟨4, 4⟩⟩ .symbol),
        .binary ⟨"*", false, ⟨6, 8⟩⟩ (.leaf ⟨"c", false, ⟨6, 6⟩⟩ .symbol)
          (.leaf ⟨"d", false, ⟨8, 8⟩⟩ .symbol)]]
    parse {} "=\x7ba*b,c*d\x7d" = .ok root ∧
      (∀ l a, Expr.leaf l a ∈ root.nodes → '\n' ∉ (atomText l.text a).toList) ∧
      (∃ text, (Style.document {} root).Lays false 0 text ∧
        ∀ line ∈ ('=' :: text).splitOn '\n', line.length ≤ 10) ∧
      ∀ line ∈ (Style.prettify {} 10 root).toList.splitOn '\n', line.length ≤ 10 := by
  intro root
  have htokens : Token.rangeTokenize .canonical "=\x7ba*b,c*d\x7d" =
      [⟨.operator, "="⟩, ⟨.leftBrace, "\x7b"⟩, ⟨.symbol, "a"⟩, ⟨.operator, "*"⟩, ⟨.symbol, "b"⟩,
        ⟨.argSeparator, ","⟩, ⟨.symbol, "c"⟩, ⟨.operator, "*"⟩, ⟨.symbol, "d"⟩,
        ⟨.rightBrace, "\x7d"⟩] := by decide +kernel
  have hparse : parse {} "=\x7ba*b,c*d\x7d" = .ok root := by
    rw [parse, htokens]
    rfl
  have hleaves : ∀ l a, Expr.leaf l a ∈ root.nodes → '\n' ∉ (atomText l.text a).toList := by
    intro l a h
    simp only [root, nodes, nodesOfRows, nodesOfList, List.cons_append, List.nil_append,
      List.append_nil, List.mem_cons, reduceCtorEq, leaf.injEq, List.not_mem_nil, or_false,
      false_or] at h
    rcases h with ⟨rfl, rfl⟩ | ⟨rfl, rfl⟩ | ⟨rfl, rfl⟩ | ⟨rfl, rfl⟩ <;> decide
  have hproduct (x y : String) (indent : Int) :
      (Style.operation {} "*" (.text x) (.text y)).Lays false indent
        (x.toList ++ (" *".toList ++
          (('\n' :: List.replicate (indent + 2).toNat ' ' ++ y.toList) ++ []))) :=
    .broken (.append (.text x) (.append (.text " *")
      (.append (.nest (.append .line (.text y))) .empty)))
  have hrow := (hproduct "a" "b" 2).append ((Document.Lays.text ", ").append (hproduct "c" "d" 2))
  have hlays : ∃ text, (Style.document {} root).Lays false 0 text ∧
      ∀ line ∈ ('=' :: text).splitOn '\n', line.length ≤ 10 :=
    ⟨_, .broken (.append (.text "\x7b") (.append (.nest (.append .line hrow))
      (.append .line (.append (.text "\x7d") .empty)))), by decide⟩
  exact ⟨hparse, hleaves, hlays,
    lines_prettify_le hparse hleaves {} rfl 10 (by decide) (by decide) hlays⟩

end Expr

end SheetFormula
