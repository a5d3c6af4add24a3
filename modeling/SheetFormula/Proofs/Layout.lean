import Mathlib.Algebra.Order.BigOperators.Group.List
import SheetFormula.Expr.Pretty
import SheetFormula.Proofs.Roundtrip

/-!
What a formula over several lines spells. However the choices of a document fall, what is written are
the words of the formula with blanks between them, so that the text has the tokens of the formula on one
line and is read as the same tree.
-/

set_option autoImplicit false

namespace SheetFormula

/-! ### Blanks and words -/

namespace Blend

theorem blanks (n : Nat) : Blend [] (List.replicate n ' ') := by
  induction n with
  | zero => exact .nil
  | succ n ih => exact .blank (by decide) ih

theorem single (t : Terminal) : Blend [t] t.written := by
  simpa using flatMap_written [t]

end Blend

/-! ### Documents -/

namespace Document

variable {a b d separator : Document} {ts us : List Terminal}

/-- Whatever choices are made, the document is written as the words of the terminals with blanks between
them. -/
def Spells (d : Document) (ts : List Terminal) : Prop :=
  ∀ (width indent : Int) (flat : Bool) (rest : List Pending) (page : Page),
    ∃ text, Blend ts text ∧
      (d.write width indent flat rest page).text.toList = page.text.toList ++ text

theorem spells_empty : Spells .empty [] :=
  fun _ _ _ _ _ => ⟨[], .nil, (List.append_nil _).symm⟩

theorem spells_text {s : String} (h : Blend ts s.toList) : Spells (.text s) ts :=
  fun _ _ _ _ _ => ⟨s.toList, h, String.toList_append⟩

theorem spells_line : Spells .line [] := by
  intro width indent flat rest page
  cases flat with
  | true => exact ⟨[], .nil, (List.append_nil _).symm⟩
  | false =>
    rw [write, if_neg (by decide), Page.breakLine]
    split
    · refine ⟨'\n' :: List.replicate (Word.wrap indent).toNat ' ',
        .blank (by decide) (.blanks _), ?_⟩
      simp
    · exact ⟨['\n'], .blank (by decide) .nil, String.toList_append⟩

theorem Spells.append (ha : a.Spells ts) (hb : b.Spells us) : (a ++ b).Spells (ts ++ us) := by
  intro width indent flat rest page
  obtain ⟨first, hfirst, hpage⟩ := ha width indent flat (⟨flat, b⟩ :: rest) page
  obtain ⟨second, hsecond, hwhole⟩ := hb width indent flat rest
    (a.write width indent flat (⟨flat, b⟩ :: rest) page)
  refine ⟨first ++ second, hfirst.append hsecond, ?_⟩
  rw [← List.append_assoc, ← hpage]
  exact hwhole

theorem Spells.choose (ha : a.Spells ts) (hb : b.Spells ts) : (Document.choose a b).Spells ts := by
  intro width indent flat rest page
  rw [write]
  split
  · exact ha width indent true rest page
  · exact hb width indent false rest page

theorem Spells.nest (h : d.Spells ts) (n : Int) : (Document.nest n d).Spells ts :=
  fun width indent flat rest page => h width (indent + n) flat rest page

theorem Spells.concat {ds : List Document} {tss : List (List Terminal)}
    (h : List.Forall₂ Spells ds tss) : (Document.concat ds).Spells tss.flatten := by
  induction h with
  | nil => exact spells_empty
  | cons hd _ ih => exact hd.append ih

theorem Spells.join {t : Terminal} {ds : List Document} {tss : List (List Terminal)}
    (hseparator : separator.Spells [t]) (h : List.Forall₂ Spells ds tss) :
    (Document.join separator ds).Spells ([t].intercalate tss) := by
  induction h with
  | nil => exact spells_empty
  | @cons d ts ds tss hd hds ih =>
    cases hds with
    | nil => simpa [Document.join] using hd
    | cons hnext hrest =>
      rw [List.intercalate_cons_cons, List.append_assoc]
      exact hd.append (hseparator.append ih)

end Document

/-! ### The documents of a formula -/

namespace Style

open Document

variable {style : Style} {d left right : Document} {ts us : List Terminal}

theorem spells_opening : (text "(").Spells [.opening] :=
  spells_text (.single .opening)

theorem spells_closing : (text ")").Spells [.closing] :=
  spells_text (.single .closing)

theorem spells_parenthesize {p : Phrase} (h : d.Spells p.yield) (needed : Bool) :
    (parenthesize needed d).Spells (Phrase.groupIf needed p).yield := by
  cases needed
  · exact h
  · have hwhole := (spells_opening.append h).append spells_closing
    simpa [parenthesize, Phrase.groupIf, Phrase.yield] using hwhole

theorem spells_mark {p : Phrase} (h : d.Spells p.yield) (debug operation : Bool) :
    (mark debug operation d).Spells (Phrase.mark debug operation p).yield := by
  cases debug
  · exact h
  · cases operation
    · exact (spells_text (.single .question)).append h
    · have hopening : (text "?(").Spells [.question, .opening] :=
        spells_text (.flatMap_written [.question, .opening])
      have hwhole := (hopening.append h).append spells_closing
      simpa [mark, Phrase.mark, Phrase.groupIf, Phrase.yield] using hwhole

theorem spells_operation {p q : Phrase} (op : String) (hleft : left.Spells p.yield)
    (hright : right.Spells q.yield) :
    (style.operation op left right).Spells (Phrase.attach op p q).yield := by
  have hop : Blend [⟨.operator, op, 0⟩] (" " ++ op).toList := by
    rw [String.toList_append]
    exact .blank (by decide) (.single _)
  have hspaced : Blend [⟨.operator, op, 0⟩] (" " ++ op ++ " ").toList := by
    rw [String.toList_append]
    exact hop.append (.blanks 1)
  have hflat := Spells.concat (.cons hleft (.cons (spells_text hspaced) (.cons hright .nil)))
  have hnested := (spells_line.append hright).nest style.indent
  have hbroken := Spells.concat (.cons hleft (.cons (spells_text hop) (.cons hnested .nil)))
  rw [Phrase.yield_attach]
  refine Spells.choose ?_ ?_
  · simpa using hflat
  · simpa using hbroken

theorem spells_word {s : String} {t : Terminal} (h : t.written = s.toList) : (text s).Spells [t] := by
  refine spells_text ?_
  rw [← h]
  exact .single t

theorem spells_breakAfter {s : String} {t : Terminal} (h : t.written = s.toList) :
    (breakAfter s).Spells [t] :=
  (spells_word h).append spells_line

theorem spells_spaceAfter {s : String} {t : Terminal} (h : t.written = s.toList) :
    (text (s ++ " ")).Spells [t] := by
  refine spells_text ?_
  rw [String.toList_append, ← h]
  exact (Blend.single t).append (.blanks 1)

/-- Brackets spell their contents between them, if the lines of the broken form do. -/
theorem spells_bracketed {opening closing separator : String} {t u v : Terminal}
    {flat broken : List Document} {tss lines : List (List Terminal)}
    (hopening : t.written = opening.toList) (hclosing : u.written = closing.toList)
    (hseparator : v.written = separator.toList) (hflat : List.Forall₂ Spells flat tss)
    (hbroken : List.Forall₂ Spells broken lines)
    (hlines : [v].intercalate lines = [v].intercalate tss) :
    (style.bracketed opening closing separator flat broken).Spells
      (t :: ([v].intercalate tss ++ [u])) := by
  have hleft := spells_word hopening
  have hright := spells_word hclosing
  have hone := Spells.join (spells_spaceAfter hseparator) hflat
  have hmany := Spells.join (spells_breakAfter hseparator) hbroken
  have hflat := Spells.concat (.cons hleft (.cons hone (.cons hright .nil)))
  have hbroken := Spells.concat (.cons hleft (.cons ((spells_line.append hmany).nest style.indent)
    (.cons spells_line (.cons hright .nil))))
  refine Spells.choose ?_ ?_
  · simpa using hflat
  · simpa [hlines] using hbroken

/-! ### Arguments in groups -/

theorem intercalate_append {α : Type} (separator : α) {l m : List (List α)} (hl : l ≠ [])
    (hm : m ≠ []) :
    [separator].intercalate (l ++ m) =
      [separator].intercalate l ++ separator :: [separator].intercalate m := by
  induction l with
  | nil => exact absurd rfl hl
  | cons x l ih =>
    cases l with
    | nil =>
      obtain ⟨y, ys, rfl⟩ := List.exists_cons_of_ne_nil hm
      simp [List.intercalate_cons_cons]
    | cons y l =>
      have hrest := ih (List.cons_ne_nil y l)
      rw [List.cons_append] at hrest
      simp [List.intercalate_cons_cons, hrest]

theorem intercalate_flatten {α : Type} (separator : α) {gs : List (List (List α))}
    (h : ∀ g ∈ gs, g ≠ []) :
    [separator].intercalate (gs.map [separator].intercalate) = [separator].intercalate gs.flatten := by
  induction gs with
  | nil => rfl
  | cons g gs ih =>
    obtain ⟨hg, hgs⟩ := List.forall_mem_cons.mp h
    cases gs with
    | nil => simp
    | cons g' gs =>
      have hrest : (g' :: gs).flatten ≠ [] := by
        simp [hgs g' List.mem_cons_self]
      rw [List.flatten_cons, intercalate_append separator hg hrest, ← ih hgs]
      simp [List.intercalate_cons_cons]

/-- Groups of lines within a list of lines change nothing in what stands between the separators. -/
theorem intercalate_groups {α : Type} (separator : α) {gs : List (List (List α))}
    (h : ∀ g ∈ gs, g ≠ []) (before rest : List (List α)) :
    [separator].intercalate (before ++ gs.map [separator].intercalate ++ rest) =
      [separator].intercalate (before ++ gs.flatten ++ rest) := by
  have hall : ∀ g ∈ before.map (fun l => [l]) ++ gs ++ rest.map (fun l => [l]), g ≠ [] := by
    simp only [List.mem_append, List.mem_map]
    rintro g ((⟨l, -, rfl⟩ | hg) | ⟨l, -, rfl⟩)
    · exact List.cons_ne_nil l []
    · exact h g hg
    · exact List.cons_ne_nil l []
  have hsingle (ls : List (List α)) : (ls.map fun l => [l]).flatten = ls := by
    rw [← List.flatMap_def, List.flatMap_singleton']
  have hflatten := intercalate_flatten separator hall
  simpa [Function.comp_def, List.flatten_append, hsingle] using hflatten

theorem groups_of_lt {α : Type} {size : Nat} {l : List α} (h : size < l.length) :
    groups size l = (l.take (size + 1) :: (groups size (l.drop (size + 1))).1,
      (groups size (l.drop (size + 1))).2) := by
  rw [groups, dif_pos h]

theorem groups_of_le {α : Type} {size : Nat} {l : List α} (h : l.length ≤ size) :
    groups size l = ([], l) := by
  rw [groups, dif_neg (Nat.not_lt.mpr h)]

/-- Induction along the groups that are cut off. -/
theorem groupsInduction {α : Type} {motive : List α → Prop} (size : Nat)
    (whole : ∀ l, size < l.length → motive (l.drop (size + 1)) → motive l)
    (rest : ∀ l, l.length ≤ size → motive l) (l : List α) : motive l := by
  by_cases h : size < l.length
  · exact whole l h (groupsInduction size whole rest (l.drop (size + 1)))
  · exact rest l (Nat.le_of_not_lt h)
termination_by l.length
decreasing_by
  rw [List.length_drop]
  omega

theorem flatten_groups {α : Type} (size : Nat) (l : List α) :
    (groups size l).1.flatten ++ (groups size l).2 = l := by
  induction l using groupsInduction size with
  | whole l h ih => rw [groups_of_lt h, List.flatten_cons, List.append_assoc, ih, List.take_append_drop]
  | rest l h => rw [groups_of_le h, List.flatten_nil, List.nil_append]

theorem ne_nil_of_mem_groups {α : Type} (size : Nat) (l : List α) :
    ∀ g ∈ (groups size l).1, g ≠ [] := by
  induction l using groupsInduction size with
  | whole l h ih =>
    rw [groups_of_lt h]
    refine List.forall_mem_cons.mpr ⟨fun hnil => ?_, ih⟩
    rw [List.take_eq_nil_iff] at hnil
    rcases hnil with hnil | rfl <;> simp_all
  | rest l h =>
    rw [groups_of_le h]
    exact List.forall_mem_nil _

theorem forall₂_groups {α β : Type} {r : α → β → Prop} (size : Nat) {l : List α} {m : List β}
    (h : List.Forall₂ r l m) :
    List.Forall₂ (List.Forall₂ r) (groups size l).1 (groups size m).1 ∧
      List.Forall₂ r (groups size l).2 (groups size m).2 := by
  induction l using groupsInduction size generalizing m with
  | whole l hl ih =>
    have hm : size < m.length := h.length_eq ▸ hl
    rw [groups_of_lt hl, groups_of_lt hm]
    obtain ⟨hmore, hrest⟩ := ih (List.forall₂_drop (size + 1) h)
    exact ⟨.cons (List.forall₂_take (size + 1) h) hmore, hrest⟩
  | rest l hl =>
    have hm : m.length ≤ size := h.length_eq ▸ hl
    rw [groups_of_le hl, groups_of_le hm]
    exact ⟨.nil, h⟩

/-- The arguments of a group, on one line or on several, spell the same. -/
theorem spells_group {ds : List Document} {tss : List (List Terminal)}
    (h : List.Forall₂ Spells ds tss) : (group ds).Spells ([.comma].intercalate tss) :=
  (Spells.join (spells_spaceAfter (s := ",") rfl) h).choose (Spells.join (spells_breakAfter rfl) h)

/-- From some argument on, the lines of a call hold whole groups of arguments. -/
theorem exists_argumentLines_eq (style : Style) (name : String) (ds : List Document) :
    ∃ start size, style.argumentLines name ds =
      ds.take start ++ (groups size (ds.drop start)).1.map group ++
        (groups size (ds.drop start)).2 := by
  have halone : ds = ds.take ds.length ++ (groups 0 (ds.drop ds.length)).1.map group ++
      (groups 0 (ds.drop ds.length)).2 := by
    rw [List.drop_length, List.take_length, groups_of_le (l := ([] : List Document)) (Nat.zero_le 0)]
    simp
  unfold argumentLines
  split
  · exact ⟨_, _, halone⟩
  · split
    · exact ⟨_, _, halone⟩
    · exact ⟨_, _, rfl⟩

/-- The lines of the arguments of a call spell the arguments, however they are grouped. -/
theorem exists_spells_argumentLines (style : Style) (name : String) {ds : List Document}
    {tss : List (List Terminal)} (h : List.Forall₂ Spells ds tss) :
    ∃ lines, List.Forall₂ Spells (style.argumentLines name ds) lines ∧
      [Terminal.comma].intercalate lines = [Terminal.comma].intercalate tss := by
  obtain ⟨start, size, heq⟩ := exists_argumentLines_eq style name ds
  obtain ⟨hwhole, hrest⟩ := forall₂_groups size (List.forall₂_drop start h)
  have hgroups : List.Forall₂ Spells ((groups size (ds.drop start)).1.map group)
      ((groups size (tss.drop start)).1.map [Terminal.comma].intercalate) := by
    rw [List.forall₂_map_left_iff, List.forall₂_map_right_iff]
    exact hwhole.imp fun _ _ => spells_group
  rw [heq]
  refine ⟨_, List.rel_append (List.rel_append (List.forall₂_take start h) hgroups) hrest, ?_⟩
  rw [intercalate_groups _ (ne_nil_of_mem_groups size _), List.append_assoc, flatten_groups,
    List.take_append_drop]

/-! ### Formulas -/

theorem forall₂_map {α β γ : Type} {r : β → γ → Prop} {f : α → β} {g : α → γ} {l : List α}
    (h : ∀ a ∈ l, r (f a) (g a)) : List.Forall₂ r (l.map f) (l.map g) := by
  rw [List.forall₂_map_left_iff, List.forall₂_map_right_iff, List.forall₂_same]
  exact h

theorem documents_eq_map (es : List Expr) : style.documents es = es.map style.document := by
  induction es with
  | nil => rfl
  | cons e es ih => rw [documents, ih, List.map_cons]

theorem rowDocuments_eq_map (rs : List (List Expr)) :
    style.rowDocuments rs = rs.map fun r => join (text ", ") (r.map style.document) := by
  induction rs with
  | nil => rfl
  | cons r rs ih => rw [rowDocuments, ih, documents_eq_map, List.map_cons]

theorem spells_call (name : String) {ds : List Document} {tss : List (List Terminal)}
    (h : List.Forall₂ Spells ds tss) :
    (style.call name ds).Spells
      (⟨.callStart, name, 0⟩ :: ([.comma].intercalate tss ++ [.closing])) := by
  have hname : Terminal.written ⟨.callStart, name, 0⟩ = (name ++ "(").toList := by
    rw [String.toList_append]
    rfl
  cases h with
  | nil =>
    refine spells_text ?_
    have hblend := Blend.flatMap_written [⟨.callStart, name, 0⟩, .closing]
    simpa [Terminal.written, Terminal.closing] using hblend
  | cons hd hds =>
    obtain ⟨lines, hlines, heq⟩ := exists_spells_argumentLines style name (.cons hd hds)
    exact spells_bracketed hname rfl rfl (.cons hd hds) hlines heq

/-- The document of a tree spells the phrase of the tree. -/
theorem spells_document {V : Vocabulary} {e : Expr} (h : e.WellFormed V) (style : Style) :
    (style.document e).Spells (Expr.phrase e).yield := by
  induction e with
  | leaf l a =>
    rw [document]
    by_cases ha : a = .empty
    · subst ha
      obtain ⟨hdebug, htext⟩ := (Expr.wellFormed_leaf _ _).mp h
      rw [hdebug, htext]
      exact spells_text .nil
    · have hleaf : (text (Expr.atomText l.text a)).Spells (Phrase.leaf l.text a).yield :=
        spells_text (.single (.atom l.text a))
      rw [Expr.phrase_leaf ha]
      exact spells_mark hleaf _ _
  | unary l suffix e ih =>
    have he := ih ((Expr.wellFormed_unary _ _ _).mp h).2
    have hop : (text l.text).Spells [⟨.operator, l.text, 0⟩] := spells_text (.single _)
    rw [document, Expr.phrase]
    refine spells_mark ?_ _ _
    cases suffix with
    | true => exact (spells_parenthesize he _).append hop
    | false => exact hop.append (spells_parenthesize he _)
  | binary l a b iha ihb =>
    obtain ⟨-, ha, hb⟩ := (Expr.wellFormed_binary _ _ _).mp h
    rw [document, Expr.phrase]
    exact spells_mark (spells_operation l.text (spells_parenthesize (iha ha) _)
      (spells_parenthesize (ihb hb) _)) _ _
  | call l as ih =>
    obtain ⟨-, has⟩ := (Expr.wellFormed_call _ _).mp h
    have hall : List.Forall₂ Spells (as.map style.document)
        ((as.map Expr.phrase).map Phrase.yield) := by
      rw [List.map_map]
      exact forall₂_map fun e he => ih e he (has e he)
    rw [document, Expr.phrase, documents_eq_map, Expr.phrases_eq_map]
    refine spells_mark ?_ _ _
    rw [Phrase.yield, Phrase.yields_eq_map]
    exact spells_call l.text hall
  | array l rs ih =>
    obtain ⟨-, hrs⟩ := (Expr.wellFormed_array _ _).mp h
    have hall : List.Forall₂ Spells (rs.map fun r => join (text ", ") (r.map style.document))
        ((rs.map (List.map Expr.phrase)).map fun r => [.comma].intercalate (r.map Phrase.yield)) := by
      rw [List.map_map]
      refine forall₂_map fun r hr => Spells.join (spells_spaceAfter (s := ",") rfl) ?_
      rw [List.map_map]
      exact forall₂_map fun e he => ih r hr e he (hrs r hr e he)
    rw [document, Expr.phrase, rowDocuments_eq_map, Expr.phraseRows_eq_map]
    refine spells_mark ?_ _ _
    rw [Phrase.yield, Phrase.yieldRows_eq_map]
    exact spells_bracketed rfl rfl rfl hall hall rfl

end Style

/-! ### Where lines begin -/

namespace Document

variable {a b d separator : Document} {room : Nat}

/-- Lines of the document begin at most `room` columns to the right of where it stands. -/
def Within : Document → Nat → Prop
  | .append a b, room => a.Within room ∧ b.Within room
  | .choose a b, room => a.Within room ∧ b.Within room
  | .nest n d, room => ∃ m left : Nat, n = m ∧ room = m + left ∧ d.Within left
  | _, _ => True

theorem Within.mono {more : Nat} (h : d.Within room) (hmore : room ≤ more) : d.Within more := by
  induction d generalizing room more with
  | append a b iha ihb => exact ⟨iha h.1 hmore, ihb h.2 hmore⟩
  | choose a b iha ihb => exact ⟨iha h.1 hmore, ihb h.2 hmore⟩
  | nest n d ih =>
    obtain ⟨m, left, hn, rfl, hd⟩ := h
    exact ⟨m, more - m, hn, by omega, ih hd (by omega)⟩
  | _ => trivial

theorem within_join {ds : List Document} (hseparator : separator.Within room)
    (h : ∀ d ∈ ds, d.Within room) : (join separator ds).Within room :=
  join_of_append trivial And.intro hseparator h

/-- Where no line begins too far right, every line begins where it should. -/
theorem misplaced_write {width indent : Int} {flat : Bool} {rest : List Pending} {page : Page}
    (h : d.Within room) (hindent : 0 ≤ indent) (hroom : indent + room ≤ greatestIndent) :
    (d.write width indent flat rest page).misplaced = page.misplaced := by
  induction d generalizing room indent flat rest page with
  | empty => rfl
  | text s => rfl
  | line =>
    rw [write]
    split
    · rfl
    · have hhigh : indent ≤ greatestIndent := by omega
      have hword : indent ≤ Word.greatest := le_trans hhigh (by decide)
      rw [Word.wrap_eq_self (le_trans (by decide) hindent) hword, Page.breakLine,
        Misplacement.ofIndent?, if_neg (by omega), if_neg (by omega)]
  | append a b iha ihb =>
    rw [write, ihb h.2 hindent hroom, iha h.1 hindent hroom]
  | choose a b iha ihb =>
    rw [write]
    split
    · exact iha h.1 hindent hroom
    · exact ihb h.2 hindent hroom
  | nest n d ih =>
    obtain ⟨m, left, rfl, rfl, hd⟩ := h
    exact ih hd (by omega) (by omega)

end Document

namespace Style

open Document

variable {style : Style} {room : Nat}

/-- A property of the arguments, which passes to groups of them, holds of the lines of a call. -/
theorem forall_argumentLines {p : Document → Prop} {ds : List Document} (name : String)
    (h : ∀ d ∈ ds, p d) (hgroup : ∀ g, (∀ d ∈ g, p d) → p (group g)) :
    ∀ d ∈ style.argumentLines name ds, p d := by
  obtain ⟨start, size, heq⟩ := exists_argumentLines_eq style name ds
  have hall : ∀ d ∈ (groups size (ds.drop start)).1.flatten ++ (groups size (ds.drop start)).2,
      p d := by
    rw [flatten_groups]
    exact fun d hd => h d (List.mem_of_mem_drop hd)
  obtain ⟨hwhole, hrest⟩ := List.forall_mem_append.mp hall
  rw [heq]
  refine List.forall_mem_append.mpr ⟨List.forall_mem_append.mpr
    ⟨fun d hd => h d (List.mem_of_mem_take hd), List.forall_mem_map.mpr fun g hg => ?_⟩, hrest⟩
  exact hgroup g fun d hd => hwhole d (List.mem_flatten_of_mem hg hd)

theorem within_parenthesize {d : Document} (h : d.Within room) (needed : Bool) :
    (parenthesize needed d).Within room := by
  cases needed
  · exact h
  · exact ⟨⟨trivial, h⟩, trivial⟩

theorem within_mark {d : Document} (h : d.Within room) (debug operation : Bool) :
    (mark debug operation d).Within room := by
  cases debug
  · exact h
  · cases operation
    · exact ⟨trivial, h⟩
    · exact ⟨⟨trivial, h⟩, trivial⟩

theorem within_nest {d : Document} (h : d.Within room) :
    (nest style.indent d).Within (style.indent + room) :=
  ⟨style.indent, room, rfl, rfl, h⟩

theorem within_operation {left right : Document} (op : String) (hleft : left.Within room)
    (hright : right.Within room) : (style.operation op left right).Within (style.indent + room) := by
  have hmore : room ≤ style.indent + room := Nat.le_add_left _ _
  have hnest : (nest style.indent (line ++ right)).Within (style.indent + room) :=
    within_nest ⟨trivial, hright⟩
  exact ⟨⟨hleft.mono hmore, trivial, hright.mono hmore, trivial⟩,
    hleft.mono hmore, trivial, hnest, trivial⟩

theorem within_bracketed {opening closing separator : String} {flat broken : List Document}
    (hflat : ∀ d ∈ flat, d.Within room) (hbroken : ∀ d ∈ broken, d.Within room) :
    (style.bracketed opening closing separator flat broken).Within (style.indent + room) := by
  have hmore : room ≤ style.indent + room := Nat.le_add_left _ _
  have hone : (join (text (separator ++ " ")) flat).Within (style.indent + room) :=
    within_join trivial fun d hd => (hflat d hd).mono hmore
  have hmany : (join (breakAfter separator) broken).Within room :=
    within_join ⟨trivial, trivial⟩ hbroken
  have hnest : (nest style.indent (line ++ join (breakAfter separator) broken)).Within
      (style.indent + room) := within_nest ⟨trivial, hmany⟩
  exact ⟨⟨trivial, hone, trivial, trivial⟩, trivial, hnest, trivial, trivial, trivial⟩

theorem within_call (name : String) {ds : List Document} (h : ∀ d ∈ ds, d.Within room) :
    (style.call name ds).Within (style.indent + room) := by
  cases ds with
  | nil => trivial
  | cons d ds =>
    refine within_bracketed h (forall_argumentLines name h fun g hg => ?_)
    exact ⟨within_join trivial hg, within_join ⟨trivial, trivial⟩ hg⟩

/-- Each node sets its parts in once at most. -/
theorem within_document (e : Expr) : (style.document e).Within (style.indent * e.size) := by
  have hpart {c : Expr} {size : Nat} (hc : (style.document c).Within (style.indent * c.size))
      (hsize : c.size ≤ size) : (style.document c).Within (style.indent * size) :=
    hc.mono (Nat.mul_le_mul_left _ hsize)
  induction e with
  | leaf l a =>
    have htext : (text (Expr.atomText l.text a)).Within (style.indent * (Expr.leaf l a).size) := trivial
    rw [document]
    exact within_mark htext _ _
  | unary l suffix e ih =>
    have he := within_parenthesize (hpart ih (Nat.le_succ _))
    rw [document]
    refine within_mark ?_ _ _
    cases suffix
    · exact ⟨trivial, he _⟩
    · exact ⟨he _, trivial⟩
  | binary l a b iha ihb =>
    have ha := within_parenthesize (hpart iha (Nat.le_add_right a.size b.size))
    have hb := within_parenthesize (hpart ihb (Nat.le_add_left b.size a.size))
    rw [document, Expr.size_binary, Nat.mul_succ, Nat.add_comm]
    exact within_mark (within_operation l.text (ha _) (hb _)) _ _
  | call l as ih =>
    rw [document, Expr.size_call, documents_eq_map, Nat.mul_succ, Nat.add_comm]
    refine within_mark (within_call l.text (List.forall_mem_map.mpr fun e he => ?_)) _ _
    exact hpart (ih e he) (List.le_sum_of_mem (List.mem_map_of_mem he))
  | array l rs ih =>
    have hrows : ∀ d ∈ rs.map fun r => join (text ", ") (r.map style.document),
        d.Within (style.indent * (rs.map fun r => (r.map Expr.size).sum).sum) := by
      refine List.forall_mem_map.mpr fun r hr =>
        within_join trivial (List.forall_mem_map.mpr fun e he => ?_)
      exact hpart (ih r hr e he) ((List.le_sum_of_mem (List.mem_map_of_mem he)).trans
        (List.le_sum_of_mem (List.mem_map_of_mem hr)))
    rw [document, Expr.size_array, rowDocuments_eq_map, Nat.mul_succ, Nat.add_comm]
    exact within_mark (within_bracketed hrows hrows) _ _

end Style

namespace Expr

/-- The pages of a tree are the words of its phrase, with blanks between them, after an equals sign. -/
theorem blend_prettify {V : Vocabulary} {root : Expr} (h : root.WellFormed V) (style : Style)
    (width : Int) :
    Blend (.equals :: (phrase root).yield) (style.prettify width root).toList := by
  obtain ⟨text, hblend, htext⟩ := Style.spells_document h style
    (if width ≤ 0 then Style.defaultWidth else width) 0 false [] { text := "", column := 1 }
  have hwhole : (style.prettify width root).toList = Terminal.equals.written ++ text := by
    rw [Style.prettify, Style.page, String.toList_append, Document.render, htext]
    rfl
  rw [hwhole]
  exact .word .equals hblend

/-- However a formula is laid out, its text has the tokens of the formula on one line and is read as the
same tree. Every line begins where it should unless lines are set in too far. -/
theorem tokens_prettify {limit : Option Nat} {formula : String} {root : Expr}
    (h : parse ⟨.canonical, limit⟩ formula = .ok root)
    (hclosed : ∀ t ∈ Token.tokenize .canonical formula, t.kind = .string →
      Lexer.isClosedString t.text.toList = true) (style : Style) (width : Int) :
    Token.unspaced (Token.tokenize .canonical (style.prettify width root)) =
        Token.unspaced (Token.tokenize .canonical ("=" ++ root.toFormula)) ∧
      (∃ pretty plain, parse ⟨.canonical, none⟩ (style.prettify width root) = .ok pretty ∧
        parse ⟨.canonical, none⟩ root.toFormula = .ok plain ∧ pretty.unplaced = plain.unplaced) ∧
      (style.indent * root.size ≤ Document.greatestIndent →
        (style.page width root).misplaced = none) := by
  obtain ⟨hformed, homitted⟩ := isOperand_of_parse h hclosed
  have hproper := proper_phrase hformed homitted
  have hwords := hasWords_phrase hformed
  have hpretty := blend_prettify hformed style width
  have hplain := blend_toFormula hformed
  refine ⟨?_, ?_, fun hindent => ?_⟩
  · have hall : ∀ t ∈ Terminal.equals :: (phrase root).yield, t.HasWord :=
      List.forall_mem_cons.mpr ⟨Terminal.hasWord_operator (by decide), hwords⟩
    have hequals : Blend (.equals :: (phrase root).yield) ("=" ++ root.toFormula).toList := by
      rw [String.toList_append]
      exact .word .equals hplain
    rw [hpretty.unspaced_tokenize_eq hequals hall hproper.isChain_equals]
  · obtain ⟨pretty, hread, htree⟩ := (hproper.derives_equals hwords hpretty).exists_ofTokens
    obtain ⟨plain, hread', htree'⟩ := (hproper.derives hwords hplain).exists_ofTokens
    exact ⟨pretty, plain, hread, hread', htree.trans htree'.symm⟩
  · refine Document.misplaced_write (Style.within_document root) (le_refl 0) ?_
    simpa using hindent

/-- Of a call in lines of ten columns, set in by four. -/
theorem tokens_prettify_of_call :
    let formula := "=SUMIFS(A1:A9,?b+1,\" of \",\x7bx,-y;2,(1)\x7d,,c^-2%)"
    let style : Style := { indent := 4 }
    (∀ t ∈ Token.tokenize .canonical formula, t.kind = .string →
      Lexer.isClosedString t.text.toList = true) ∧
      ∃ root, parse ⟨.canonical, none⟩ formula = .ok root ∧
        Token.unspaced (Token.tokenize .canonical (style.prettify 10 root)) =
          Token.unspaced (Token.tokenize .canonical ("=" ++ root.toFormula)) ∧
        (∃ pretty plain, parse ⟨.canonical, none⟩ (style.prettify 10 root) = .ok pretty ∧
          parse ⟨.canonical, none⟩ root.toFormula = .ok plain ∧ pretty.unplaced = plain.unplaced) ∧
        (style.indent * root.size ≤ Document.greatestIndent →
          (style.page 10 root).misplaced = none) := by
  intro formula style
  have hclosed : ∀ t ∈ Token.tokenize .canonical formula, t.kind = .string →
      Lexer.isClosedString t.text.toList = true := by decide +kernel
  have hread : (parse ⟨.canonical, none⟩ formula).isOk = true := by decide +kernel
  obtain ⟨root, hroot⟩ := exists_ok_of_isOk hread
  exact ⟨hclosed, root, hroot, tokens_prettify hroot hclosed style 10⟩

end Expr

end SheetFormula
