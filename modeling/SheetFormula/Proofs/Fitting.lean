import Mathlib.Algebra.Order.Ring.Int
import SheetFormula.Layout.Document

/-!
Layouts within a width. A document is laid out by choosing the flat or the broken form of each choice;
the writer takes the flat form wherever the rest of the line still has room after it.

What is still to be written is seen as the set of columns from which it can be laid out. A flat form ends
further right than the broken one, and the look ahead tells that the rest can be laid out from there, if
it can be from some column right of its margin (`Follow.exchange`). Each way of putting documents
together comes with a rule that says how the margin moves (`Step`); a choice is never taken too early
where its flat form can be broken up from the margin on (`Step.choose`).
-/

set_option autoImplicit false

namespace SheetFormula

/-! ### Lines -/

namespace Text

variable {w c : Nat} {s r : List Char}

/-- The column that a text reaches from a column. -/
def column (c : Nat) : List Char → Nat
  | [] => c
  | x :: xs => if x = '\n' then column 0 xs else column (c + 1) xs

/-- All lines of a text that begins in a column are within the width. -/
def Narrow (w c : Nat) : List Char → Prop
  | [] => c ≤ w
  | x :: xs => if x = '\n' then c ≤ w ∧ Narrow w 0 xs else Narrow w (c + 1) xs

theorem Narrow.le (h : Narrow w c s) : c ≤ w := by
  induction s generalizing c with
  | nil => exact h
  | cons x xs ih =>
    rw [Narrow] at h
    split at h
    · exact h.1
    · exact Nat.le_of_succ_le (ih h)

theorem column_append (c : Nat) (s r : List Char) : column c (s ++ r) = column (column c s) r := by
  induction s generalizing c with
  | nil => rfl
  | cons x xs ih =>
    rw [List.cons_append, column, column]
    split <;> exact ih _

theorem narrow_append : Narrow w c (s ++ r) ↔ Narrow w c s ∧ Narrow w (column c s) r := by
  induction s generalizing c with
  | nil => exact ⟨fun h => ⟨h.le, h⟩, And.right⟩
  | cons x xs ih =>
    rw [List.cons_append, Narrow, Narrow, column]
    split
    · rw [ih, and_assoc]
    · exact ih

theorem Narrow.column_le (h : Narrow w c s) : column c s ≤ w := by
  rw [← List.append_nil s, narrow_append] at h
  exact h.2

theorem column_of_not_mem (h : '\n' ∉ s) (c : Nat) : column c s = c + s.length := by
  induction s generalizing c with
  | nil => rfl
  | cons x xs ih =>
    rw [List.mem_cons, not_or] at h
    obtain ⟨hx, hxs⟩ := h
    rw [column, if_neg (Ne.symm hx), ih hxs, List.length_cons]
    omega

theorem narrow_of_not_mem (h : '\n' ∉ s) (c : Nat) : Narrow w c s ↔ c + s.length ≤ w := by
  induction s generalizing c with
  | nil => rfl
  | cons x xs ih =>
    rw [List.mem_cons, not_or] at h
    obtain ⟨hx, hxs⟩ := h
    rw [Narrow, if_neg (Ne.symm hx), ih hxs, List.length_cons]
    omega

/-- The lines of a text are what stands between its line breaks; the first goes on with a line. -/
theorem narrow_iff_of_splitOn {first : List Char} {others : List (List Char)}
    (h : s.splitOn '\n' = first :: others) (c : Nat) :
    Narrow w c s ↔ c + first.length ≤ w ∧ ∀ line ∈ others, line.length ≤ w := by
  induction s generalizing c first others with
  | nil =>
    obtain ⟨rfl, rfl⟩ := List.cons_eq_cons.mp h
    simp [Narrow]
  | cons x xs ih =>
    obtain ⟨first', others', hxs⟩ := List.exists_cons_of_ne_nil (List.splitOn_ne_nil '\n' xs)
    rw [List.splitOn_cons_eq_if_modifyHead, hxs] at h
    rw [Narrow]
    by_cases hx : x = '\n'
    · rw [if_pos (by simpa using hx)] at h
      obtain ⟨rfl, rfl⟩ := List.cons_eq_cons.mp h
      rw [if_pos hx, ih hxs]
      simp
    · rw [if_neg (by simpa using hx), List.modifyHead_cons] at h
      obtain ⟨rfl, rfl⟩ := List.cons_eq_cons.mp h
      rw [if_neg hx, ih hxs, List.length_cons, Nat.add_right_comm, Nat.add_assoc]

theorem narrow_iff_splitOn : Narrow w 0 s ↔ ∀ line ∈ s.splitOn '\n', line.length ≤ w := by
  obtain ⟨first, others, h⟩ := List.exists_cons_of_ne_nil (List.splitOn_ne_nil '\n' s)
  rw [narrow_iff_of_splitOn h, h, List.forall_mem_cons, Nat.zero_add]

end Text

/-! ### Layouts -/

namespace Document

/-- The texts that a document is laid out as, set in by `indent`, when its choices are made in any way.
In a flat document all choices are flat and lines do not break. -/
inductive Lays : Bool → Document → Int → List Char → Prop
  | empty {flat : Bool} {indent : Int} : Lays flat .empty indent []
  | text {flat : Bool} {indent : Int} (s : String) : Lays flat (.text s) indent s.toList
  | line {indent : Int} : Lays false .line indent ('\n' :: List.replicate indent.toNat ' ')
  | flatLine {indent : Int} : Lays true .line indent []
  | append {flat : Bool} {a b : Document} {indent : Int} {s r : List Char}
    (first : Lays flat a indent s) (second : Lays flat b indent r) :
    Lays flat (.append a b) indent (s ++ r)
  | flat {flat : Bool} {f b : Document} {indent : Int} {s : List Char} (form : Lays true f indent s) :
    Lays flat (.choose f b) indent s
  | broken {f b : Document} {indent : Int} {s : List Char} (form : Lays false b indent s) :
    Lays false (.choose f b) indent s
  | nest {flat : Bool} {n : Int} {d : Document} {indent : Int} {s : List Char}
    (body : Lays flat d (indent + n) s) : Lays flat (.nest n d) indent s

/-- How wide a document is on one line. -/
def width : Document → Nat
  | .empty => 0
  | .text s => s.length
  | .line => 0
  | .append a b => a.width + b.width
  | .choose f _ => f.width
  | .nest _ d => d.width

/-- No text of the document breaks a line. -/
def IsPlain : Document → Prop
  | .text s => '\n' ∉ s.toList
  | .append a b => a.IsPlain ∧ b.IsPlain
  | .choose f b => f.IsPlain ∧ b.IsPlain
  | .nest _ d => d.IsPlain
  | _ => True

/-- With its broken forms the document breaks the line before it takes more of it than on one line, or it
takes just as much. -/
def Compact (d : Document) : Prop :=
  ∀ n, d.width ≤ n → d.room false n = .broken ∨ d.room false n = .left (n - d.width)

theorem isPlain_join {separator : Document} {ds : List Document} (hseparator : separator.IsPlain)
    (h : ∀ d ∈ ds, d.IsPlain) : (join separator ds).IsPlain :=
  join_of_append trivial And.intro hseparator h

/-- The document can be laid out from one column to another with all its lines within the width. -/
def Spans (w : Nat) : Document → Int → Nat → Nat → Prop
  | .empty, _, c, c' => c' = c
  | .text s, _, c, c' => c' = c + s.length ∧ c' ≤ w
  | .line, indent, _, c' => c' = indent.toNat ∧ c' ≤ w
  | .append a b, indent, c, c' => ∃ m, a.Spans w indent c m ∧ b.Spans w indent m c'
  | .choose f b, indent, c, c' => c' = c + f.width ∧ c' ≤ w ∨ b.Spans w indent c c'
  | .nest n d, indent, c, c' => d.Spans w (indent + n) c c'

variable {w c c' : Nat} {d : Document} {indent : Int} {s : List Char}

theorem Spans.le (h : d.Spans w indent c c') (hc : c ≤ w) : c' ≤ w := by
  induction d generalizing indent c c' with
  | empty => exact h ▸ hc
  | text s => exact h.2
  | line => exact h.2
  | append a b iha ihb =>
    obtain ⟨m, hfirst, hsecond⟩ := h
    exact ihb hsecond (iha hfirst hc)
  | choose f b ihf ihb =>
    rcases h with h | h
    · exact h.2
    · exact ihb h hc
  | nest n d ih => exact ih h hc

theorem Lays.flat_text (h : Lays true d indent s) (hplain : d.IsPlain) :
    '\n' ∉ s ∧ s.length = d.width := by
  induction d generalizing indent s with
  | empty =>
    cases h
    exact ⟨List.not_mem_nil, rfl⟩
  | text t =>
    cases h
    exact ⟨hplain, String.length_toList⟩
  | line =>
    cases h
    exact ⟨List.not_mem_nil, rfl⟩
  | append a b iha ihb =>
    cases h with
    | append first second =>
      obtain ⟨ha, hla⟩ := iha first hplain.1
      obtain ⟨hb, hlb⟩ := ihb second hplain.2
      exact ⟨by simp [ha, hb], by rw [List.length_append, hla, hlb, width]⟩
  | choose f b ihf ihb =>
    cases h with
    | flat form => exact ihf form hplain.1
  | nest n d ih =>
    cases h with
    | nest body => exact ih body hplain

theorem not_mem_replicate (n : Nat) : '\n' ∉ List.replicate n ' ' := by
  intro h
  exact absurd (List.eq_of_mem_replicate h) (by decide)

/-- A layout whose lines are within the width takes the columns that it reaches. -/
theorem Lays.spans (h : Lays false d indent s) (hplain : d.IsPlain) (hnarrow : Text.Narrow w c s) :
    d.Spans w indent c (Text.column c s) := by
  induction d generalizing indent s c with
  | empty =>
    cases h
    rfl
  | text t =>
    cases h
    rw [Text.narrow_of_not_mem hplain] at hnarrow
    rw [Text.column_of_not_mem hplain]
    exact ⟨by rw [String.length_toList], hnarrow⟩
  | line =>
    cases h
    obtain ⟨-, hnarrow⟩ : c ≤ w ∧ _ := hnarrow
    rw [Text.narrow_of_not_mem (not_mem_replicate _), List.length_replicate, Nat.zero_add] at hnarrow
    have hcolumn : Text.column c ('\n' :: List.replicate indent.toNat ' ') = indent.toNat := by
      rw [Text.column, if_pos rfl, Text.column_of_not_mem (not_mem_replicate _),
        List.length_replicate, Nat.zero_add]
    rw [hcolumn]
    exact ⟨rfl, hnarrow⟩
  | append a b iha ihb =>
    cases h with
    | append first second =>
      obtain ⟨hfirst, hsecond⟩ := Text.narrow_append.mp hnarrow
      rw [Text.column_append]
      exact ⟨_, iha first hplain.1 hfirst, ihb second hplain.2 hsecond⟩
  | choose f b ihf ihb =>
    cases h with
    | flat form =>
      obtain ⟨hbreak, hlength⟩ := form.flat_text hplain.1
      rw [Text.narrow_of_not_mem hbreak, hlength] at hnarrow
      rw [Text.column_of_not_mem hbreak, hlength]
      exact .inl ⟨rfl, hnarrow⟩
    | broken form => exact .inr (ihb form hplain.2 hnarrow)
  | nest n d ih =>
    cases h with
    | nest body => exact ih body hplain hnarrow

/-! ### Pages -/

/-- The lines of a page, the first of which begins in the second column, are within the width, and the
last one ends where the page says, or before. -/
structure Page.IsNarrow (w : Nat) (page : Page) : Prop where
  narrow : Text.Narrow w 1 page.text.toList
  column : (Text.column 1 page.text.toList : Int) ≤ page.column

theorem Page.IsNarrow.write {page : Page} {c : Nat} (h : page.IsNarrow w) (hcolumn : page.column = c)
    {s : String} (hs : '\n' ∉ s.toList) (hroom : c + s.length ≤ w) : (page.write s).IsNarrow w := by
  have hreached := h.column
  rw [hcolumn] at hreached
  constructor
  · rw [Page.write, String.toList_append, Text.narrow_append, Text.narrow_of_not_mem hs,
      String.length_toList]
    exact ⟨h.narrow, by omega⟩
  · rw [Page.write, String.toList_append, Text.column_append, Text.column_of_not_mem hs,
      String.length_toList, hcolumn]
    push_cast
    omega

/-- A text that goes on in a new line with `n` blanks. -/
theorem Page.IsNarrow.newLine {page : Page} (h : page.IsNarrow w) {n i : Nat} (hn : n ≤ i) (hi : i ≤ w)
    (m : Option Misplacement) :
    Page.IsNarrow w ⟨page.text ++ "\n" ++ String.ofList (List.replicate n ' '), i, m⟩ := by
  have htext : (page.text ++ "\n" ++ String.ofList (List.replicate n ' ')).toList =
      page.text.toList ++ '\n' :: List.replicate n ' ' := by simp
  have hnarrow (c : Nat) : Text.Narrow w c ('\n' :: List.replicate n ' ') ↔ c ≤ w ∧ n ≤ w := by
    rw [Text.Narrow, if_pos rfl, Text.narrow_of_not_mem (not_mem_replicate n), List.length_replicate,
      Nat.zero_add]
  have hcolumn (c : Nat) : Text.column c ('\n' :: List.replicate n ' ') = n := by
    rw [Text.column, if_pos rfl, Text.column_of_not_mem (not_mem_replicate n), List.length_replicate,
      Nat.zero_add]
  constructor
  · rw [htext, Text.narrow_append, hnarrow]
    exact ⟨h.narrow, h.narrow.column_le, hn.trans hi⟩
  · rw [htext, Text.column_append, hcolumn]
    exact Int.ofNat_le.mpr hn

theorem Page.IsNarrow.breakLine {page : Page} (h : page.IsNarrow w) {i : Nat} (hi : i ≤ w) :
    (page.breakLine i).IsNarrow w ∧ (page.breakLine i).column = i := by
  unfold Page.breakLine
  split
  · exact ⟨h.newLine (le_refl i) hi _, rfl⟩
  · exact ⟨by simpa using h.newLine (Nat.zero_le i) hi _, rfl⟩

/-! ### What follows -/

/-- From the columns in `R` all that is still to be written can be laid out within the width. From
`margin` on, the look ahead tells which columns these are, if there are any. -/
structure Follow (w : Nat) (rest : List Pending) (R : Nat → Prop) (margin : Nat) : Prop where
  within : ∀ c, R c → c ≤ w
  fits : ∀ c, R c → fitsAll rest (w - c) = true
  down : ∀ c c', R c → c' ≤ c → R c'
  exchange : ∀ c c', margin ≤ c → R c → c' ≤ w → fitsAll rest (w - c') = true → R c'

theorem follow_nil (w : Nat) : Follow w [] (· ≤ w) 0 where
  within _ h := h
  fits _ _ := rfl
  down _ _ h hle := hle.trans h
  exchange _ _ _ _ h _ := h

theorem Follow.mono {rest : List Pending} {R : Nat → Prop} {margin more : Nat}
    (h : Follow w rest R margin) (hmore : margin ≤ more) : Follow w rest R more :=
  { h with exchange := fun c c' hc => h.exchange c c' (hmore.trans hc) }

theorem Follow.congr {rest rest' : List Pending} {R : Nat → Prop} {margin : Nat}
    (h : Follow w rest R margin) (heq : ∀ n, fitsAll rest' n = fitsAll rest n) :
    Follow w rest' R margin where
  within := h.within
  fits c hc := (heq _).trans (h.fits c hc)
  down := h.down
  exchange c c' hc hR hc' hfits := h.exchange c c' hc hR hc' ((heq _).symm.trans hfits)

/-- The columns from which a document can be laid out, with a column in `R` to end in. -/
def Before (w : Nat) (d : Document) (indent : Int) (R : Nat → Prop) (c : Nat) : Prop :=
  c ≤ w ∧ ∃ c', d.Spans w indent c c' ∧ R c'

/-- How a document at an indentation is written from columns `low` on: it ends from `high` on; if what
follows it has a margin of at most `outer`, it has itself one of `inner`; and what is written keeps to a
column from which the rest can be laid out. -/
structure Step (w : Nat) (d : Document) (i low high outer inner : Nat) : Prop where
  ends : ∀ c c', low ≤ c → d.Spans w i c c' → high ≤ c'
  follow : ∀ rest R, Follow w rest R outer → Follow w (⟨false, d⟩ :: rest) (d.Before w i R) inner
  write : ∀ rest R, Follow w rest R outer → ∀ (page : Page) (c : Nat), page.IsNarrow w →
    page.column = c → low ≤ c → d.Before w i R c →
    ∃ c', d.Spans w i c c' ∧ R c' ∧ (d.write w i false rest page).IsNarrow w ∧
      (d.write w i false rest page).column = c'

section Look

variable (rest : List Pending) (n : Nat)

theorem fitsAll_text (flat : Bool) (s : String) :
    fitsAll (⟨flat, .text s⟩ :: rest) n = (decide (s.length ≤ n) && fitsAll rest (n - s.length)) := by
  by_cases h : s.length ≤ n <;> simp [fitsAll, room, h]

theorem fitsAll_append (flat : Bool) (a b : Document) :
    fitsAll (⟨flat, .append a b⟩ :: rest) n = fitsAll (⟨flat, a⟩ :: ⟨flat, b⟩ :: rest) n := by
  simp only [fitsAll, room]
  cases a.room flat n <;> rfl

theorem room_flat (f : Document) :
    f.room true n = if f.width ≤ n then .left (n - f.width) else .over := by
  induction f generalizing n with
  | empty => simp [room, width]
  | text s => rfl
  | line => simp [room, width]
  | append a b iha ihb =>
    rw [room, iha, width]
    by_cases ha : a.width ≤ n
    · simp only [ha, if_true, ihb, Nat.sub_sub]
      by_cases hb : b.width ≤ n - a.width
      · rw [if_pos hb, if_pos (by omega)]
      · rw [if_neg hb, if_neg (by omega)]
    · simp only [ha, if_false]
      rw [if_neg (by omega)]
  | choose f b ihf ihb => exact ihf n
  | nest k d ih => exact ih n

theorem fitsAll_flat (f : Document) :
    fitsAll (⟨true, f⟩ :: rest) n = (decide (f.width ≤ n) && fitsAll rest (n - f.width)) := by
  rw [fitsAll, room_flat]
  by_cases h : f.width ≤ n <;> simp [h]

end Look

section Rules

variable {a b : Document} {i low mid high outer between inner : Nat}

theorem Step.mono {low' high' outer' inner' : Nat} (h : Step w d i low high outer inner)
    (hlow : low ≤ low') (hhigh : high' ≤ high) (houter : outer' ≤ outer) (hinner : inner ≤ inner') :
    Step w d i low' high' outer' inner' where
  ends c c' hc hspans := hhigh.trans (h.ends c c' (hlow.trans hc) hspans)
  follow rest R hrest := (h.follow rest R (hrest.mono houter)).mono hinner
  write rest R hrest page c hpage hcolumn hc :=
    h.write rest R (hrest.mono houter) page c hpage hcolumn (hlow.trans hc)

theorem step_empty (hhigh : high ≤ low) (houter : outer ≤ inner) :
    Step w .empty i low high outer inner where
  ends c c' hc hspans := by
    cases hspans
    exact hhigh.trans hc
  follow rest R hrest := by
    have hbefore (c : Nat) : Before w .empty i R c ↔ R c :=
      ⟨fun ⟨_, _, h, hR⟩ => h ▸ hR, fun hR => ⟨hrest.within c hR, c, rfl, hR⟩⟩
    have heq : Before w .empty i R = R := funext fun c => propext (hbefore c)
    rw [heq]
    exact (hrest.mono houter).congr fun _ => rfl
  write rest R hrest page c hpage hcolumn hc := by
    rintro ⟨-, c', rfl, hR⟩
    exact ⟨_, rfl, hR, hpage, hcolumn⟩

theorem step_text {s : String} (hs : '\n' ∉ s.toList) (hhigh : high ≤ low + s.length)
    (houter : outer ≤ inner + s.length) : Step w (.text s) i low high outer inner where
  ends c c' hc hspans := by
    obtain ⟨rfl, -⟩ := hspans
    omega
  follow rest R hrest := by
    constructor
    · exact fun c h => h.1
    · rintro c ⟨-, c', ⟨rfl, hw⟩, hR⟩
      have hfits := hrest.fits _ hR
      rw [fitsAll_text, Nat.sub_sub, hfits]
      simp only [Bool.and_true, decide_eq_true_eq]
      omega
    · rintro c c₁ ⟨-, c', ⟨rfl, hw⟩, hR⟩ hle
      exact ⟨by omega, _, ⟨rfl, by omega⟩, hrest.down _ _ hR (by omega)⟩
    · rintro c c₁ hc ⟨-, c', ⟨rfl, hw⟩, hR⟩ hc₁ hfits
      rw [fitsAll_text, Nat.sub_sub, Bool.and_eq_true, decide_eq_true_eq] at hfits
      exact ⟨hc₁, _, ⟨rfl, by omega⟩, hrest.exchange _ _ (by omega) hR (by omega) hfits.2⟩
  write rest R hrest page c hpage hcolumn hc := by
    rintro ⟨-, c', ⟨rfl, hw⟩, hR⟩
    refine ⟨_, ⟨rfl, hw⟩, hR, hpage.write hcolumn hs hw, ?_⟩
    rw [Document.write, Page.write, hcolumn]
    push_cast
    rfl

theorem step_line (hw : (w : Int) ≤ Word.greatest) : Step w .line i low i outer inner where
  ends c c' hc hspans := by
    obtain ⟨rfl, -⟩ := hspans
    simp
  follow rest R hrest := by
    constructor
    · exact fun c h => h.1
    · exact fun c h => rfl
    · rintro c c₁ ⟨hc, c', hspans, hR⟩ hle
      exact ⟨hle.trans hc, c', hspans, hR⟩
    · rintro c c₁ - ⟨-, c', hspans, hR⟩ hc₁ -
      exact ⟨hc₁, c', hspans, hR⟩
  write rest R hrest page c hpage hcolumn hc := by
    rintro ⟨-, c', ⟨hc', hw'⟩, hR⟩
    rw [Int.toNat_natCast] at hc'
    subst hc'
    have hwrap : Word.wrap c' = c' :=
      Word.wrap_eq_self (le_trans (by decide) (Int.natCast_nonneg c')) (by omega)
    obtain ⟨hnarrow, hcolumn⟩ := hpage.breakLine hw'
    rw [Document.write, if_neg (by decide), hwrap]
    exact ⟨c', ⟨(Int.toNat_natCast c').symm, hw'⟩, hR, hnarrow, hcolumn⟩

theorem before_append (a b : Document) (indent : Int) (R : Nat → Prop) :
    Before w (a ++ b) indent R = Before w a indent (Before w b indent R) := by
  funext c
  refine propext ⟨?_, ?_⟩
  · rintro ⟨hc, c', ⟨m, hfirst, hsecond⟩, hR⟩
    exact ⟨hc, m, hfirst, hfirst.le hc, c', hsecond, hR⟩
  · rintro ⟨hc, m, hfirst, -, c', hsecond, hR⟩
    exact ⟨hc, c', ⟨m, hfirst, hsecond⟩, hR⟩

theorem Step.append (ha : Step w a i low mid between inner) (hb : Step w b i mid high outer between) :
    Step w (a ++ b) i low high outer inner where
  ends c c' hc hspans := by
    obtain ⟨m, hfirst, hsecond⟩ := hspans
    exact hb.ends m c' (ha.ends c m hc hfirst) hsecond
  follow rest R hrest := by
    rw [before_append]
    exact (ha.follow _ _ (hb.follow rest R hrest)).congr fun n => fitsAll_append rest n false a b
  write rest R hrest page c hpage hcolumn hc hbefore := by
    rw [before_append] at hbefore
    obtain ⟨m, hfirst, hm, hpage, hcolumn⟩ :=
      ha.write _ _ (hb.follow rest R hrest) page c hpage hcolumn hc hbefore
    obtain ⟨c', hsecond, hR, hnarrow⟩ :=
      hb.write rest R hrest _ m hpage hcolumn (ha.ends c m hc hfirst) hm
    exact ⟨c', ⟨m, hfirst, hsecond⟩, hR, hnarrow⟩

theorem Step.nest {n : Nat} (h : Step w d (i + n) low high outer inner) :
    Step w (.nest n d) i low high outer inner :=
  ⟨h.ends, fun rest R hrest => (h.follow rest R hrest).congr fun _ => rfl, h.write⟩

theorem fits_iff (hw : (w : Int) ≤ Word.greatest) (hc : c ≤ w) (f : Document) (rest : List Pending) :
    fits (Word.wrap ((w : Int) - c)) f rest = true ↔
      c + f.width ≤ w ∧ fitsAll rest (w - (c + f.width)) = true := by
  have hwrap : Word.wrap ((w : Int) - c) = (w - c : Nat) := by
    rw [Word.wrap_eq_self (le_trans (by decide) (show (0 : Int) ≤ w - c by omega)) (by omega)]
    omega
  rw [fits, hwrap, Int.toNat_natCast, fitsAll_flat, Nat.sub_sub]
  simp only [Int.natCast_nonneg, decide_true, Bool.true_and, Bool.and_eq_true, decide_eq_true_eq]
  exact and_congr_left fun _ => by omega

theorem write_flat {f : Document} (hplain : f.IsPlain) {columns indent : Int} {rest : List Pending}
    {page : Page} (hpage : page.IsNarrow w) (hcolumn : page.column = c) (hroom : c + f.width ≤ w) :
    (f.write columns indent true rest page).IsNarrow w ∧
      (f.write columns indent true rest page).column = (c + f.width : Nat) := by
  induction f generalizing page c rest indent with
  | empty => exact ⟨hpage, hcolumn⟩
  | text s =>
    refine ⟨hpage.write hcolumn hplain hroom, ?_⟩
    rw [Document.write, Page.write, hcolumn, width]
    push_cast
    rfl
  | line => exact ⟨hpage, hcolumn⟩
  | append a b iha ihb =>
    rw [Document.width] at hroom ⊢
    obtain ⟨hfirst, hmiddle⟩ :
        (a.write columns indent true (⟨true, b⟩ :: rest) page).IsNarrow w ∧
          (a.write columns indent true (⟨true, b⟩ :: rest) page).column = (c + a.width : Nat) :=
      iha hplain.1 hpage hcolumn (by omega)
    rw [← Nat.add_assoc]
    exact ihb hplain.2 hfirst hmiddle (by omega)
  | choose f b ihf ihb => exact ihf hplain.1 hpage hcolumn hroom
  | nest n d ih => exact ih hplain hpage hcolumn hroom

/-- A choice can be written as its broken form can, if that has no more on its first line than the flat
form, and the flat form can be broken up from `inner` on. -/
theorem Step.choose {f : Document} (hw : (w : Int) ≤ Word.greatest)
    (h : Step w b i low high outer inner) (hplain : f.IsPlain)
    (hhigh : high ≤ low + f.width) (houter : outer ≤ high) (hfirst : (Document.choose f b).Compact)
    (hbreak : ∀ c, inner ≤ c → c + f.width ≤ w → ∃ c' ≤ c + f.width, b.Spans w i c c') :
    Step w (.choose f b) i low high outer inner where
  ends c c' hc hspans := by
    rcases hspans with ⟨rfl, -⟩ | hspans
    · omega
    · exact h.ends c c' hc hspans
  follow rest R hrest := by
    have hbroken := h.follow rest R hrest
    constructor
    · exact fun c h => h.1
    · rintro c ⟨hc, c', ⟨rfl, hw⟩ | hspans, hR⟩
      · have hfits := hrest.fits _ hR
        rcases hfirst (w - c) (show f.width ≤ w - c by omega) with hroom | hroom
        · simp only [fitsAll, hroom]
        · simp only [fitsAll, hroom]
          rwa [width, Nat.sub_sub]
      · exact hbroken.fits c ⟨hc, c', hspans, hR⟩
    · rintro c c₁ ⟨hc, c', ⟨rfl, hw⟩ | hspans, hR⟩ hle
      · exact ⟨hle.trans hc, _, .inl ⟨rfl, by omega⟩, hrest.down _ _ hR (by omega)⟩
      · obtain ⟨hc₁, c'', hspans, hR⟩ := hbroken.down c c₁ ⟨hc, c', hspans, hR⟩ hle
        exact ⟨hc₁, c'', .inr hspans, hR⟩
    · intro c c₁ hc hbefore hc₁ hfits
      have hbefore : b.Before w i R c := by
        obtain ⟨hw, c', ⟨rfl, hw'⟩ | hspans, hR⟩ := hbefore
        · obtain ⟨c'', hle, hspans⟩ := hbreak c hc hw'
          exact ⟨hw, c'', hspans, hrest.down _ _ hR hle⟩
        · exact ⟨hw, c', hspans, hR⟩
      obtain ⟨hc₁, c'', hspans, hR⟩ := hbroken.exchange c c₁ hc hbefore hc₁ hfits
      exact ⟨hc₁, c'', .inr hspans, hR⟩
  write rest R hrest page c hpage hcolumn hc hbefore := by
    obtain ⟨hle, hbefore⟩ := hbefore
    rw [Document.write, Bool.false_or, hcolumn]
    by_cases hfits : fits (Word.wrap ((w : Int) - c)) f rest = true
    · -- The broken form ends from `high` on, so that the look ahead decides for the rest.
      obtain ⟨hroom, hlook⟩ := (fits_iff hw hle f rest).mp hfits
      have hR : R (c + f.width) := by
        obtain ⟨c', ⟨rfl, -⟩ | hspans, hR⟩ := hbefore
        · exact hR
        · exact hrest.exchange c' _ (houter.trans (h.ends c c' hc hspans)) hR hroom hlook
      rw [if_pos hfits]
      exact ⟨_, .inl ⟨rfl, hroom⟩, hR, write_flat hplain hpage hcolumn hroom⟩
    · have hbroken : b.Before w i R c := by
        obtain ⟨c', ⟨rfl, hroom⟩ | hspans, hR⟩ := hbefore
        · exact absurd ((fits_iff hw hle f rest).mpr ⟨hroom, hrest.fits _ hR⟩) hfits
        · exact ⟨hle, c', hspans, hR⟩
      obtain ⟨c', hspans, hR, hnarrow⟩ := h.write rest R hrest page c hpage hcolumn hc hbroken
      rw [if_neg hfits]
      exact ⟨c', .inr hspans, hR, hnarrow⟩

end Rules

/-! ### Documents that can be written in one line -/

/-- The document has a flat form among its layouts, and its first line is never longer than that. -/
structure Even (w : Nat) (d : Document) : Prop where
  plain : d.IsPlain
  first : d.Compact
  flat : ∀ (indent : Int) (c : Nat), c + d.width ≤ w → d.Spans w indent c (c + d.width)

theorem even_empty (w : Nat) : Even w .empty :=
  ⟨trivial, fun _ _ => .inr rfl, fun _ _ _ => rfl⟩

theorem even_text {s : String} (hs : '\n' ∉ s.toList) (w : Nat) : Even w (.text s) where
  plain := hs
  first _ hn := .inr (if_pos hn)
  flat _ _ hroom := ⟨rfl, hroom⟩

theorem Even.append {a b : Document} (ha : Even w a) (hb : Even w b) : Even w (a ++ b) where
  plain := ⟨ha.plain, hb.plain⟩
  first n hn := by
    have hn : a.width + b.width ≤ n := hn
    change room false (.append a b) n = _ ∨ room false (.append a b) n = .left (n - (a.width + b.width))
    rw [room]
    rcases ha.first n (by omega) with h | h
    · rw [h]
      exact .inl rfl
    · rw [h, ← Nat.sub_sub]
      exact hb.first _ (by omega)
  flat indent c hroom := by
    have hroom : c + (a.width + b.width) ≤ w := hroom
    refine ⟨c + a.width, ha.flat indent c (by omega), ?_⟩
    change b.Spans w indent _ (c + (a.width + b.width))
    rw [← Nat.add_assoc]
    exact hb.flat indent _ (by omega)

theorem Even.choose {f b : Document} (hplain : (Document.choose f b).IsPlain)
    (hfirst : (Document.choose f b).Compact) : Even w (.choose f b) where
  plain := hplain
  first := hfirst
  flat _ _ hroom := .inl ⟨rfl, hroom⟩

theorem Even.join {separator : Document} {ds : List Document} (hseparator : Even w separator)
    (h : ∀ d ∈ ds, Even w d) : Even w (Document.join separator ds) :=
  join_of_append (even_empty w) Even.append hseparator h

/-- The document can be written anywhere right of its margin. -/
structure Tidy (w : Nat) (d : Document) : Prop extends Even w d where
  step : ∀ i, Step w d i i i i (i + 1)

theorem tidy_text {s : String} (hs : '\n' ∉ s.toList) (w : Nat) : Tidy w (.text s) where
  toEven := even_text hs w
  step i := step_text hs (by omega) (by omega)

theorem Tidy.append_text (h : Tidy w d) {s : String} (hs : '\n' ∉ s.toList) : Tidy w (d ++ text s) where
  toEven := h.toEven.append (even_text hs w)
  step i := (h.step i).append (step_text hs (by omega) (by omega))

theorem Tidy.text_append (h : Tidy w d) {s : String} (hs : '\n' ∉ s.toList) : Tidy w (text s ++ d) where
  toEven := (even_text hs w).append h.toEven
  step i := (step_text hs (by omega) (by omega)).append (h.step i)

/-- Documents on one line can be written with something between each two. -/
theorem Tidy.join {s : String} (hs : '\n' ∉ s.toList) (hlength : 1 ≤ s.length) {ds : List Document}
    (h : ∀ d ∈ ds, Tidy w d) : Tidy w (Document.join (text s) ds) where
  toEven := Even.join (even_text hs w) fun d hd => (h d hd).toEven
  step i := by
    induction ds with
    | nil => exact step_empty (le_refl i) (Nat.le_succ i)
    | cons d ds ih =>
      obtain ⟨hd, hds⟩ := List.forall_mem_cons.mp h
      cases ds with
      | nil => exact hd.step i
      | cons d' ds =>
        exact (hd.step i).append ((step_text hs (by omega) (by omega)).append (ih hds))

/-- A choice can be written anywhere right of its margin, if its broken form can, has no more on its
first line than the flat form, and can stand for it one column right of the margin. -/
theorem Tidy.choose {f b : Document} (hw : (w : Int) ≤ Word.greatest) (heven : Even w (.choose f b))
    (hstep : ∀ i, Step w b i i i i (i + 1))
    (hbreak : ∀ i c : Nat, i + 1 ≤ c → c + f.width ≤ w → ∃ c' ≤ c + f.width, b.Spans w i c c') :
    Tidy w (.choose f b) where
  toEven := heven
  step i := (hstep i).choose hw heven.plain.1 (Nat.le_add_right _ _) (le_refl i) heven.first (hbreak i)

theorem Even.room_append {a b : Document} (ha : Even w a) {n : Nat} (hn : a.width ≤ n)
    (hb : b.room false (n - a.width) = .broken) : room false (a ++ b) n = .broken := by
  change room false (.append a b) n = .broken
  rw [room]
  rcases ha.first n hn with h | h <;> rw [h]
  exact hb

end Document

end SheetFormula
