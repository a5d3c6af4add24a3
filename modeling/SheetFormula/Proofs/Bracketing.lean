import SheetFormula.Proofs.Grammar
import SheetFormula.Proofs.Writing

/-!
A phrase is known by its terminals and its tree. The tree says how many words stand before an operator,
not counting parentheses and marks, so the terminals split in one way into those of the operands. Where
one phrase begins with a parenthesis of its own and another with one of its first operand, the
parentheses close at different places.
-/

set_option autoImplicit false

namespace SheetFormula

namespace Terminal

variable {t s s' : Terminal} {ts us as bs as' bs' : List Terminal}

/-! ### Words -/

/-- A terminal other than parentheses and marks. The name of a call brings its parenthesis along. -/
def isSolid (t : Terminal) : Bool :=
  match t.role with
  | .operand (.leaf _ .empty) | .leftParen | .rightParen | .marker => false
  | _ => true

/-- How many words there are among the terminals. -/
def solids (ts : List Terminal) : Nat :=
  ts.countP isSolid

@[simp] theorem solids_nil : solids [] = 0 := rfl

@[simp] theorem solids_cons (t : Terminal) (ts : List Terminal) :
    solids (t :: ts) = solids ts + if t.isSolid then 1 else 0 :=
  List.countP_cons

@[simp] theorem solids_append (ts us : List Terminal) : solids (ts ++ us) = solids ts + solids us :=
  List.countP_append

/-- A word is found by the number of words before it. -/
theorem append_cons_inj (hs : s.isSolid = true) (hs' : s'.isSolid = true) (hcount : solids as = solids as')
    (h : as ++ s :: bs = as' ++ s' :: bs') : as = as' ∧ s = s' ∧ bs = bs' := by
  induction as generalizing as' with
  | nil =>
    cases as' with
    | nil => exact ⟨rfl, List.cons.inj h⟩
    | cons t as' =>
      obtain ⟨rfl, -⟩ := List.cons.inj h
      simp [hs] at hcount
  | cons t as ih =>
    cases as' with
    | nil =>
      obtain ⟨rfl, -⟩ := List.cons.inj h
      simp [hs'] at hcount
    | cons t' as' =>
      obtain ⟨rfl, htail⟩ := List.cons.inj h
      obtain ⟨rfl, hrest⟩ := ih (by simpa using hcount) htail
      exact ⟨rfl, hrest⟩

theorem solids_intercalate {ls ls' : List (List Terminal)} (s : Terminal)
    (h : List.Forall₂ (fun l l' => solids l = solids l') ls ls') :
    solids ([s].intercalate ls) = solids ([s].intercalate ls') := by
  induction h with
  | nil => rfl
  | @cons l l' ls ls' hhead htail ih =>
    cases htail with
    | nil => simpa using hhead
    | cons _ _ => rw [List.intercalate_cons_cons, List.intercalate_cons_cons, solids_append, solids_append,
        solids_append, solids_append, hhead, ih]

/-- Lists with a word between them are found by the numbers of their words. -/
theorem intercalate_inj {ls ls' : List (List Terminal)} (hs : s.isSolid = true)
    (h : List.Forall₂ (fun l l' => solids l = solids l') ls ls')
    (heq : [s].intercalate ls = [s].intercalate ls') : ls = ls' := by
  induction h with
  | nil => rfl
  | @cons l l' ls ls' hhead htail ih =>
    cases htail with
    | nil => simpa using heq
    | cons _ _ =>
      rw [List.intercalate_cons_cons, List.intercalate_cons_cons, List.append_assoc, List.append_assoc] at heq
      obtain ⟨rfl, -, hrest⟩ := append_cons_inj hs hs hhead heq
      rw [ih hrest]

/-! ### Levels -/

def opens (t : Terminal) : Bool :=
  match t.role with
  | .leftParen | .callStart => true
  | _ => false

def closes (t : Terminal) : Bool :=
  match t.role with
  | .rightParen => true
  | _ => false

/-- Every parenthesis that closes has been opened before, and all are closed. -/
structure Level (ts : List Terminal) : Prop where
  total : ts.countP closes = ts.countP opens
  initial : ∀ first rest, ts = first ++ rest → first.countP closes ≤ first.countP opens

theorem Level.nil : Level [] where
  total := rfl
  initial first rest h := by
    obtain ⟨rfl, -⟩ := List.append_eq_nil_iff.mp h.symm
    exact le_rfl

theorem Level.append (h : Level ts) (h' : Level us) : Level (ts ++ us) where
  total := by rw [List.countP_append, List.countP_append, h.total, h'.total]
  initial first rest heq := by
    obtain ⟨more, rfl, hus⟩ | ⟨more, hts, -⟩ := List.append_eq_append_iff.mp heq
    · have hmore := h'.initial more rest hus
      have htotal := h.total
      simp only [List.countP_append]
      omega
    · exact h.initial first more hts

theorem level_singleton (hopens : t.opens = false) (hcloses : t.closes = false) : Level [t] where
  total := by simp [hopens, hcloses]
  initial first rest h := by
    obtain ⟨rfl, -⟩ | ⟨rfl, -⟩ := List.append_eq_singleton_iff.mp h.symm <;> simp [hcloses]

theorem Level.cons (h : Level ts) (hopens : t.opens = false) (hcloses : t.closes = false) :
    Level (t :: ts) :=
  (level_singleton hopens hcloses).append h

theorem Level.wrap (h : Level ts) (hs : s.opens = true) (hs' : s.closes = false) :
    Level (s :: (ts ++ [closing])) where
  total := by
    have hopens : closing.opens = false := rfl
    have hcloses : closing.closes = true := rfl
    simp [hs, hs', hopens, hcloses, h.total]
  initial first rest heq := by
    cases first with
    | nil => exact le_rfl
    | cons s first =>
      obtain ⟨rfl, htail⟩ := List.cons.inj heq
      obtain ⟨more, rfl, hmore⟩ | ⟨more, hts, -⟩ := List.append_eq_append_iff.mp htail
      · have htotal := h.total
        have hlast : more.countP closes ≤ 1 := by
          have hlength := congrArg List.length hmore
          have hcount := List.countP_le_length (p := closes) (l := more)
          simp only [List.length_append, List.length_singleton] at hlength
          omega
        simp only [List.countP_cons, List.countP_append, hs, hs', if_true, Bool.false_eq_true, if_false]
        omega
      · have hfirst := h.initial first more hts
        simp only [List.countP_cons, hs, hs', if_true, Bool.false_eq_true, if_false]
        omega

theorem Level.intercalate {ls : List (List Terminal)} (h : ∀ l ∈ ls, Level l) (hopens : s.opens = false)
    (hcloses : s.closes = false) : Level ([s].intercalate ls) := by
  induction ls with
  | nil => exact .nil
  | cons l ls ih =>
    obtain ⟨hl, hls⟩ := List.forall_mem_cons.mp h
    cases ls with
    | nil => simpa using hl
    | cons m ls =>
      rw [List.intercalate_cons_cons, List.append_assoc]
      exact hl.append ((ih hls).cons hopens hcloses)

end Terminal

namespace Phrase

variable {d d' : Phrase}

/-- The phrase has an operator after its first operand. -/
def Trails : Phrase → Prop
  | .suffix .. | .operation .. => True
  | _ => False

/-- No mark stands before an operation that has its operator after the first operand, unless it is in
parentheses. -/
inductive TightMarks : Phrase → Prop
  | leaf (text : String) (atom : Atom) : TightMarks (.leaf text atom)
  | omitted : TightMarks .omitted
  | group {d : Phrase} (inner : TightMarks d) : TightMarks (.group d)
  | marked {d : Phrase} (operand : TightMarks d) (tight : ¬ d.Trails) : TightMarks (.marked d)
  | sign {d : Phrase} (op : String) (operand : TightMarks d) : TightMarks (.sign op d)
  | suffix {d : Phrase} (op : String) (operand : TightMarks d) : TightMarks (.suffix op d)
  | operation {a b : Phrase} (op : String) (left : TightMarks a) (right : TightMarks b) :
    TightMarks (.operation op a b)
  | call {as : List Phrase} (function : String) (arguments : ∀ a ∈ as, TightMarks a) :
    TightMarks (.call function as)
  | array {rs : List (List Phrase)} (cells : ∀ r ∈ rs, ∀ c ∈ r, TightMarks c) : TightMarks (.array rs)

theorem Proper.tightMarks (h : d.Proper) : d.TightMarks := by
  induction h with
  | leaf text atom => exact .leaf text atom
  | group inner ih => exact .group ih
  | @marked d operand above ih =>
    refine .marked ih fun htrails => ?_
    have hle := Operator.priority_le_atomPriority
    cases d with
    | suffix op d => exact absurd above.1 (Nat.not_lt.mpr (hle op))
    | operation op a b => exact absurd above.1 (Nat.not_lt.mpr (hle op))
    | _ => exact htrails
  | sign sign operand above ih => exact .sign _ ih
  | suffix suffix operand before ih => exact .suffix _ ih
  | operation binds binary left right before above ihleft ihright => exact .operation _ ihleft ihright
  | call arguments single ih =>
    refine .call _ fun a ha => ?_
    by_cases homitted : a = .omitted
    · rw [homitted]
      exact .omitted
    · exact ih a ha homitted
  | array some rows cells ih => exact .array ih

theorem TightMarks.level_yield (h : d.TightMarks) : Terminal.Level d.yield := by
  induction h with
  | leaf text atom => exact Terminal.level_singleton rfl rfl
  | omitted => exact .nil
  | group inner ih => exact ih.wrap rfl rfl
  | marked operand tight ih => exact ih.cons rfl rfl
  | sign op operand ih => exact ih.cons rfl rfl
  | suffix op operand ih => exact ih.append (Terminal.level_singleton rfl rfl)
  | operation op left right ihleft ihright => exact ihleft.append (ihright.cons rfl rfl)
  | call function arguments ih =>
    rw [yield, yields_eq_map]
    exact (Terminal.Level.intercalate (List.forall_mem_map.mpr ih) rfl rfl).wrap rfl rfl
  | array cells ih =>
    rw [yield, yieldRows_eq_map]
    have hrows := Terminal.Level.intercalate (s := .semicolon) (List.forall_mem_map.mpr fun r hr =>
      Terminal.Level.intercalate (s := .comma) (List.forall_mem_map.mpr (ih r hr)) rfl rfl) rfl rfl
    exact (hrows.append (Terminal.level_singleton rfl rfl)).cons rfl rfl

/-! ### The words of a tree -/

theorem solids_groupIf (needed : Bool) (d : Phrase) :
    Terminal.solids (groupIf needed d).yield = Terminal.solids d.yield := by
  cases needed
  · rfl
  · simp [groupIf, yield, Terminal.opening, Terminal.closing, Terminal.isSolid]

theorem solids_mark (debug operation : Bool) (d : Phrase) :
    Terminal.solids (mark debug operation d).yield = Terminal.solids d.yield := by
  cases debug
  · rfl
  · simp [mark, yield, solids_groupIf, Terminal.question, Terminal.isSolid]

end Phrase

namespace Expr

variable {e f : Expr}

/-- How many words the text of a tree has, its parentheses and marks left aside. -/
def solids (e : Expr) : Nat :=
  Terminal.solids (phrase e).yield

theorem solids_leaf (l : Label) (a : Atom) : (leaf l a).solids = if a = .empty then 0 else 1 := by
  split
  · rename_i ha
    subst ha
    rfl
  · rename_i ha
    rw [solids, phrase_leaf ha, Phrase.solids_mark]
    cases a with
    | empty => exact absurd rfl ha
    | _ => rfl

theorem solids_unary (l : Label) (suffix : Bool) (e : Expr) :
    (unary l suffix e).solids = e.solids + 1 := by
  rw [solids, phrase, Phrase.solids_mark]
  cases suffix <;> simp [Phrase.yield, Phrase.solids_groupIf, solids, Terminal.isSolid]

theorem solids_binary (l : Label) (a b : Expr) :
    (binary l a b).solids = a.solids + b.solids + 1 := by
  rw [solids, phrase, Phrase.solids_mark, Phrase.yield_attach]
  simp [Phrase.solids_groupIf, solids, Terminal.isSolid, Nat.add_assoc]

theorem solids_call (l : Label) (as : List Expr) :
    (call l as).solids =
      Terminal.solids ([.comma].intercalate (as.map fun a => (phrase a).yield)) + 1 := by
  rw [solids, phrase, Phrase.solids_mark, Phrase.yield, Phrase.yields_eq_map, phrases_eq_map,
    List.map_map]
  simp [Terminal.isSolid, Terminal.closing]
  rfl

theorem solids_array (l : Label) (rs : List (List Expr)) :
    (array l rs).solids = Terminal.solids ([.semicolon].intercalate
      (rs.map fun r => [.comma].intercalate (r.map fun c => (phrase c).yield))) + 2 := by
  rw [solids, phrase, Phrase.solids_mark, Phrase.yield, Phrase.yieldRows_eq_map, phraseRows_eq_map]
  simp [Terminal.isSolid, Terminal.openingBrace, Terminal.closingBrace, Function.comp_def]

theorem solids_marked (e : Expr) (index : Int) : (e.marked index).solids = e.solids := by
  cases e with
  | leaf l a => simp [marked, withLabel, solids_leaf]
  | unary l suffix e => simp [marked, withLabel, solids_unary]
  | binary l a b => simp [marked, withLabel, solids_binary]
  | call l as => simp [marked, withLabel, solids_call]
  | array l rs => simp [marked, withLabel, solids_array]

theorem empty_iff_of_same {l l' : Label} {a a' : Atom}
    (h : same (.leaf l a) (.leaf l' a') = true) : a = .empty ↔ a' = .empty := by
  simp only [same, Bool.and_eq_true] at h
  cases a <;> cases a' <;> simp_all

theorem solids_eq_of_same (h : same e f = true) : e.solids = f.solids := by
  have hlist {es fs : List Expr} (h : List.Forall₂ (fun e f => e.solids = f.solids) es fs) :
      List.Forall₂ (fun l l' => Terminal.solids l = Terminal.solids l')
        (es.map fun e => (phrase e).yield) (fs.map fun f => (phrase f).yield) := by
    rw [List.forall₂_map_left_iff, List.forall₂_map_right_iff]
    exact h
  refine sameInduction ?leaf ?unary ?binary ?call ?array h
  case leaf =>
    intro l l' a a' h
    rw [solids_leaf, solids_leaf, if_congr (empty_iff_of_same h) rfl rfl]
  case unary =>
    intro l l' suffix suffix' e e' ih
    rw [solids_unary, solids_unary, ih]
  case binary =>
    intro l l' a a' b b' iha ihb
    rw [solids_binary, solids_binary, iha, ihb]
  case call =>
    intro l l' as as' ih
    rw [solids_call, solids_call, Terminal.solids_intercalate .comma (hlist ih)]
  case array =>
    intro l l' rs rs' ih
    rw [solids_array, solids_array, Terminal.solids_intercalate .semicolon]
    rw [List.forall₂_map_left_iff, List.forall₂_map_right_iff]
    exact ih.imp fun r r' h => Terminal.solids_intercalate .comma (hlist h)

theorem marked_marked (e : Expr) (i j : Int) : (e.marked i).marked j = e.marked j := by
  cases e <;> rfl

theorem isOperation_of_same (h : (e.marked 0).same (f.marked 0) = true) :
    e.isOperation = f.isOperation ∧ e.isSigned = f.isSigned := by
  cases e <;> cases f <;> simp_all [same, marked, withLabel, isOperation, isSigned]

theorem same_marked (h : same e f = true) : (e.marked 0).same (f.marked 0) = true := by
  cases e <;> cases f <;> simp_all [same, marked, withLabel, label]

end Expr

namespace Phrase

variable {d d' : Phrase}

/-- The tree of a phrase has the words of the phrase. -/
theorem TightMarks.solids_yield (h : d.TightMarks) : Terminal.solids d.yield = d.tree.solids := by
  have hlist {ds : List Phrase} (hds : ∀ d ∈ ds, Terminal.solids d.yield = d.tree.solids) :
      List.Forall₂ (fun l l' => Terminal.solids l = Terminal.solids l') (ds.map yield)
        ((ds.map tree).map fun e => (Expr.phrase e).yield) := by
    rw [List.map_map, List.forall₂_map_left_iff, List.forall₂_map_right_iff]
    exact List.forall₂_same.mpr hds
  induction h with
  | leaf text atom =>
    rw [tree, Expr.solids_leaf]
    cases atom <;> rfl
  | omitted => rfl
  | group inner ih =>
    rw [tree, ← ih]
    exact solids_groupIf true _
  | marked operand tight ih =>
    rw [tree, Expr.solids_marked, ← ih]
    rfl
  | sign op operand ih =>
    rw [tree, Expr.solids_unary, ← ih, yield, Terminal.solids_cons]
    rfl
  | suffix op operand ih =>
    rw [tree, Expr.solids_unary, ← ih, yield, Terminal.solids_append]
    rfl
  | operation op left right ihleft ihright =>
    rw [tree, Expr.solids_binary, ← ihleft, ← ihright, yield, Terminal.solids_append, Nat.add_assoc,
      Terminal.solids_cons]
    rfl
  | call function arguments ih =>
    rw [tree, Expr.solids_call, trees_eq_map, yield, yields_eq_map, Terminal.solids_cons,
      Terminal.solids_append, Terminal.solids_intercalate .comma (hlist ih)]
    rfl
  | @array rs cells ih =>
    have hrows : List.Forall₂ (fun l l' => Terminal.solids l = Terminal.solids l')
        (rs.map fun r => [.comma].intercalate (r.map yield))
        ((rs.map (List.map tree)).map fun r => [.comma].intercalate
          (r.map fun e => (Expr.phrase e).yield)) := by
      rw [List.map_map, List.forall₂_map_left_iff, List.forall₂_map_right_iff]
      exact List.forall₂_same.mpr fun r hr => Terminal.solids_intercalate .comma (hlist (ih r hr))
    rw [tree, Expr.solids_array, treeRows_eq_map, yield, yieldRows_eq_map, Terminal.solids_cons,
      Terminal.solids_append, Terminal.solids_intercalate .semicolon hrows]
    rfl

theorem solids_eq (h : d.TightMarks) (h' : d'.TightMarks) (hsame : d.tree.same d'.tree = true) :
    Terminal.solids d.yield = Terminal.solids d'.yield := by
  rw [h.solids_yield, h'.solids_yield, Expr.solids_eq_of_same hsame]

/-! ### Phrases with the same terminals -/

theorem isOperation_tree (h : d.Trails) : d.tree.isOperation = true ∧ d.tree.isSigned = false := by
  cases d with
  | suffix op d => exact ⟨rfl, rfl⟩
  | operation op a b => exact ⟨rfl, rfl⟩
  | _ => exact h.elim

/-- An operation that has its operator after the first operand, but in parentheses. -/
theorem TightMarks.exists_closed (h : d.TightMarks) (hnot : ¬ d.Trails)
    (hoperation : d.tree.isOperation = true) (hsigned : d.tree.isSigned = false) :
    ∃ marks inner, d.yield = marks ++ .opening :: (inner ++ [.closing]) ∧
      (∀ t ∈ marks, t = .question) ∧ Terminal.Level inner := by
  induction h with
  | @group d inner ih => exact ⟨[], d.yield, rfl, List.forall_mem_nil _, inner.level_yield⟩
  | @marked d operand tight ih =>
    have htree : d.tree.isOperation = true ∧ d.tree.isSigned = false := by
      rw [tree] at hoperation hsigned
      cases hd : d.tree <;> rw [hd] at hoperation hsigned <;> exact ⟨hoperation, hsigned⟩
    obtain ⟨marks, inner, hyield, hmarks, hlevel⟩ := ih tight htree.1 htree.2
    refine ⟨.question :: marks, inner, ?_, List.forall_mem_cons.mpr ⟨rfl, hmarks⟩, hlevel⟩
    rw [yield, hyield, List.cons_append]
  | suffix | operation => exact absurd trivial hnot
  | sign => exact absurd hsigned.symm Bool.false_ne_true
  | _ => exact absurd hoperation Bool.false_ne_true

/-- An operator outside of all parentheses does not stand between two that belong together. -/
theorem closed_ne_append {marks inner as bs : List Terminal} (op : String)
    (hmarks : ∀ t ∈ marks, t = .question) (hinner : Terminal.Level inner) (has : Terminal.Level as) :
    marks ++ .opening :: (inner ++ [.closing]) ≠ as ++ ⟨.operator, op, 0⟩ :: bs := by
  intro h
  obtain ⟨more, rfl, hmore⟩ | ⟨more, rfl, hmore⟩ := List.append_eq_append_iff.mp h
  · cases more with
    | nil => cases (List.cons.inj hmore).1
    | cons t first =>
      obtain ⟨rfl, htail⟩ := List.cons.inj hmore
      have hfirst : first.countP Terminal.closes ≤ first.countP Terminal.opens := by
        obtain ⟨rest, rfl, hrest⟩ | ⟨rest, hrest, -⟩ := List.append_eq_append_iff.mp htail
        · cases rest with
          | nil => cases (List.cons.inj hrest).1
          | cons t rest => cases rest <;> cases hrest
        · exact hinner.initial first rest hrest
      have htotal := has.total
      have hzero : marks.countP Terminal.closes = 0 :=
        List.countP_eq_zero.mpr fun t ht => by simp [hmarks t ht, Terminal.question, Terminal.closes]
      have hopens : Terminal.opening.opens = true := rfl
      have hcloses : Terminal.opening.closes = false := rfl
      simp only [List.countP_append, List.countP_cons, hzero, hopens, hcloses, if_true, Bool.false_eq_true,
        if_false] at htotal
      omega
  · cases more with
    | nil => cases (List.cons.inj hmore).1
    | cons t more =>
      obtain ⟨rfl, -⟩ := List.cons.inj hmore
      cases hmarks _ (List.mem_append_right as List.mem_cons_self)

/-- An operation without parentheses of its own is no other phrase with the same terminals. -/
theorem TightMarks.yield_ne (h : d.TightMarks) (htrails : d.Trails) (h' : d'.TightMarks)
    (hnot : ¬ d'.Trails) (hoperation : d'.tree.isOperation = d.tree.isOperation)
    (hsigned : d'.tree.isSigned = d.tree.isSigned) : d.yield ≠ d'.yield := by
  obtain ⟨htree, hunsigned⟩ := isOperation_tree htrails
  obtain ⟨marks, inner, hyield, hmarks, hlevel⟩ :=
    h'.exists_closed hnot (hoperation.trans htree) (hsigned.trans hunsigned)
  rw [hyield]
  cases h with
  | suffix op operand =>
    intro heq
    rw [yield, ← List.cons_append, ← List.append_assoc] at heq
    cases (List.append_inj' heq rfl).2
  | operation op left right => exact (closed_ne_append op hmarks hlevel left.level_yield).symm
  | _ => exact htrails.elim

/-- An operation without parentheses of its own is told from other phrases by its terminals. -/
theorem TightMarks.trails_iff (h : d.TightMarks) (h' : d'.TightMarks) (hyield : d.yield = d'.yield)
    (hsame : (d.tree.marked 0).same (d'.tree.marked 0) = true) : d.Trails ↔ d'.Trails := by
  obtain ⟨hoperation, hsigned⟩ := Expr.isOperation_of_same hsame
  constructor <;> intro htrails <;> by_contra hnot
  · exact h.yield_ne htrails h' hnot hoperation.symm hsigned.symm hyield
  · exact h'.yield_ne htrails h hnot hoperation hsigned hyield.symm

/-- No other phrase has the terminals and, a mark in front left aside, the tree. -/
def Known (d : Phrase) : Prop :=
  ∀ {d' : Phrase}, d'.TightMarks → d.yield = d'.yield →
    (d.tree.marked 0).same (d'.tree.marked 0) = true → d = d'

section Arguments

variable {as as' : List Phrase} (has : ∀ a ∈ as, a.TightMarks) (has' : ∀ a ∈ as', a.TightMarks)
  (hsame : List.Forall₂ (fun a a' => a.tree.same a'.tree = true) as as')

include has has' hsame

theorem forall₂_solids :
    List.Forall₂ (fun l l' => Terminal.solids l = Terminal.solids l') (as.map yield) (as'.map yield) := by
  induction hsame with
  | nil => exact .nil
  | cons hhead htail ih =>
    obtain ⟨ha, has⟩ := List.forall_mem_cons.mp has
    obtain ⟨ha', has'⟩ := List.forall_mem_cons.mp has'
    exact .cons (solids_eq ha ha' hhead) (ih has has')

/-- Arguments that are known are known together. -/
theorem arguments_eq (hknown : ∀ a ∈ as, a.Known)
    (hyield : [.comma].intercalate (as.map yield) = [.comma].intercalate (as'.map yield)) : as = as' := by
  have hyields := Terminal.intercalate_inj rfl (forall₂_solids has has' hsame) hyield
  clear hyield
  induction hsame with
  | nil => rfl
  | cons hhead htail ih =>
    obtain ⟨hfirst, hrest⟩ := List.cons.inj hyields
    obtain ⟨ha, has⟩ := List.forall_mem_cons.mp has
    obtain ⟨ha', has'⟩ := List.forall_mem_cons.mp has'
    obtain ⟨hknownFirst, hknown⟩ := List.forall_mem_cons.mp hknown
    rw [hknownFirst ha' hfirst (Expr.same_marked hhead), ih has has' hknown hrest]

end Arguments

theorem rows_eq {rs rs' : List (List Phrase)} (hrs : ∀ r ∈ rs, ∀ c ∈ r, c.TightMarks)
    (hrs' : ∀ r ∈ rs', ∀ c ∈ r, c.TightMarks)
    (hsame : List.Forall₂ (List.Forall₂ fun a a' => a.tree.same a'.tree = true) rs rs')
    (hknown : ∀ r ∈ rs, ∀ c ∈ r, c.Known)
    (hyields : (rs.map fun r => [.comma].intercalate (r.map yield)) =
      rs'.map fun r => [.comma].intercalate (r.map yield)) : rs = rs' := by
  induction hsame with
  | nil => rfl
  | cons hhead htail ih =>
    obtain ⟨hfirst, hrest⟩ := List.cons.inj hyields
    obtain ⟨hr, hrs⟩ := List.forall_mem_cons.mp hrs
    obtain ⟨hr', hrs'⟩ := List.forall_mem_cons.mp hrs'
    obtain ⟨hknownFirst, hknown⟩ := List.forall_mem_cons.mp hknown
    rw [arguments_eq hr hr' hhead hknownFirst hfirst, ih hrs hrs' hknown hrest]

theorem forall₂_solids_rows {rs rs' : List (List Phrase)} (hrs : ∀ r ∈ rs, ∀ c ∈ r, c.TightMarks)
    (hrs' : ∀ r ∈ rs', ∀ c ∈ r, c.TightMarks)
    (hsame : List.Forall₂ (List.Forall₂ fun a a' => a.tree.same a'.tree = true) rs rs') :
    List.Forall₂ (fun l l' => Terminal.solids l = Terminal.solids l')
      (rs.map fun r => [.comma].intercalate (r.map yield))
      (rs'.map fun r => [.comma].intercalate (r.map yield)) := by
  induction hsame with
  | nil => exact .nil
  | cons hhead htail ih =>
    obtain ⟨hr, hrs⟩ := List.forall_mem_cons.mp hrs
    obtain ⟨hr', hrs'⟩ := List.forall_mem_cons.mp hrs'
    exact .cons (Terminal.solids_intercalate .comma (forall₂_solids hr hr' hhead)) (ih hrs hrs')

/-- Two phrases with the same terminals and the same tree are of the same form: an operator outside of all
parentheses shows by `trails_iff`, and any other form by its first terminal. -/
theorem TightMarks.ctorIdx_eq (h : d.TightMarks) (h' : d'.TightMarks) (hyield : d.yield = d'.yield)
    (hsame : (d.tree.marked 0).same (d'.tree.marked 0) = true) : d.ctorIdx = d'.ctorIdx := by
  have htrails := h.trails_iff h' hyield hsame
  cases h with
  | suffix op operand =>
    cases h' with
    | suffix op' operand' => rfl
    | operation => simp [tree, Expr.marked, Expr.withLabel, Expr.same] at hsame
    | _ => exact (htrails.mp trivial).elim
  | operation op left right =>
    cases h' with
    | suffix => simp [tree, Expr.marked, Expr.withLabel, Expr.same] at hsame
    | operation op' left' right' => rfl
    | _ => exact (htrails.mp trivial).elim
  | _ =>
    cases h' with
    | suffix | operation => exact (htrails.mpr trivial).elim
    | _ => first | rfl | cases congrArg (fun ts => ts.head?.map Terminal.role) hyield

/-- A phrase is known by its terminals and its tree. -/
theorem TightMarks.known (h : d.TightMarks) : d.Known := by
  -- the parts of both phrases are compared in turn, each with the share of the terminals that it yields
  induction h with
  | leaf text atom =>
    intro d' h' hyield hsame
    have hform := (TightMarks.leaf text atom).ctorIdx_eq h' hyield hsame
    cases h' with
    | leaf text' atom' =>
      cases hyield
      rfl
    | _ => cases hform
  | omitted =>
    intro d' h' hyield hsame
    have hform := TightMarks.omitted.ctorIdx_eq h' hyield hsame
    cases h' with
    | omitted => rfl
    | _ => cases hform
  | group inner ih =>
    intro d' h' hyield hsame
    have hform := (TightMarks.group inner).ctorIdx_eq h' hyield hsame
    cases h' with
    | group inner' =>
      rw [ih inner' (List.append_cancel_right (List.cons.inj hyield).2) hsame]
    | _ => cases hform
  | marked operand tight ih =>
    intro d' h' hyield hsame
    have hform := (TightMarks.marked operand tight).ctorIdx_eq h' hyield hsame
    cases h' with
    | marked operand' tight' =>
      rw [tree, tree, Expr.marked_marked, Expr.marked_marked] at hsame
      rw [ih operand' (List.cons.inj hyield).2 hsame]
    | _ => cases hform
  | sign op operand ih =>
    intro d' h' hyield hsame
    have hform := (TightMarks.sign op operand).ctorIdx_eq h' hyield hsame
    cases h' with
    | sign op' operand' =>
      obtain ⟨hop, htail⟩ := List.cons.inj hyield
      cases hop
      simp only [tree, Expr.marked, Expr.withLabel, Expr.same, Bool.and_eq_true] at hsame
      rw [ih operand' htail (Expr.same_marked hsame.2)]
    | _ => cases hform
  | suffix op operand ih =>
    intro d' h' hyield hsame
    have hform := (TightMarks.suffix op operand).ctorIdx_eq h' hyield hsame
    cases h' with
    | suffix op' operand' =>
      obtain ⟨hrest, hop⟩ := List.append_inj' hyield rfl
      cases hop
      simp only [tree, Expr.marked, Expr.withLabel, Expr.same, Bool.and_eq_true] at hsame
      rw [ih operand' hrest (Expr.same_marked hsame.2)]
    | _ => cases hform
  | operation op left right ihleft ihright =>
    intro d' h' hyield hsame
    have hform := (TightMarks.operation op left right).ctorIdx_eq h' hyield hsame
    cases h' with
    | operation op' left' right' =>
      simp only [tree, Expr.marked, Expr.withLabel, Expr.same, Bool.and_eq_true] at hsame
      obtain ⟨hleft, hop, hright⟩ :=
        Terminal.append_cons_inj rfl rfl (solids_eq left left' hsame.1.2) hyield
      cases hop
      rw [ihleft left' hleft (Expr.same_marked hsame.1.2), ihright right' hright (Expr.same_marked hsame.2)]
    | _ => cases hform
  | call function arguments ih =>
    intro d' h' hyield hsame
    have hform := (TightMarks.call function arguments).ctorIdx_eq h' hyield hsame
    cases h' with
    | call function' arguments' =>
      obtain ⟨hname, htail⟩ := List.cons.inj hyield
      cases hname
      rw [yields_eq_map, yields_eq_map] at htail
      simp only [tree, Expr.marked, Expr.withLabel, Expr.same, Bool.and_eq_true, Expr.sameList_iff,
        trees_eq_map, List.forall₂_map_left_iff, List.forall₂_map_right_iff] at hsame
      rw [arguments_eq arguments arguments' hsame.2 ih (List.append_cancel_right htail)]
    | _ => cases hform
  | array cells ih =>
    intro d' h' hyield hsame
    have hform := (TightMarks.array cells).ctorIdx_eq h' hyield hsame
    cases h' with
    | array cells' =>
      obtain ⟨-, htail⟩ := List.cons.inj hyield
      rw [yieldRows_eq_map, yieldRows_eq_map] at htail
      simp only [tree, Expr.marked, Expr.withLabel, Expr.same, Bool.and_eq_true, Expr.sameRows_iff,
        treeRows_eq_map, List.forall₂_map_left_iff, List.forall₂_map_right_iff] at hsame
      have hyields := Terminal.intercalate_inj rfl (forall₂_solids_rows cells cells' hsame.2)
        (List.append_cancel_right htail)
      rw [rows_eq cells cells' hsame.2 ih hyields]
    | _ => cases hform

end Phrase

end SheetFormula
