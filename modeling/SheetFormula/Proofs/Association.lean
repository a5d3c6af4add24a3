import Mathlib.Algebra.GroupWithZero.Nat
import SheetFormula.Proofs.Recast

/-!
Chains of an associative operator. The text of a tree does not show how such a chain is grouped, so that
reading it back regroups the chain from the left. `leftAssociate` does this to every chain in full;
`reassociate` does it as far as the text goes, where a first operand in parentheses stays together. Both
agree up to a further `leftAssociate`, and both leave a tree alone in which no chain is grouped otherwise.
-/

set_option autoImplicit false

namespace SheetFormula

/-- An atom that equals itself. -/
def Atom.IsRegular : Atom → Prop
  | .number value => value ≠ .nan
  | .other _ => False
  | _ => True

/-- The vocabulary whose atoms are equal to themselves. -/
def Vocabulary.regular : Vocabulary where
  leaf _ atom := atom.IsRegular
  function _ := True

theorem Number.same_comm (v w : Number) : v.same w = w.same v := by
  cases v <;> cases w <;> simp [Number.same, Bool.and_comm, BEq.comm]

namespace Expr

/-- The right operand goes on with the chain of the operator: it is an unmarked operation of the same
priority, and the operator is associative. -/
def continues (op : String) : Expr → Bool
  | .binary l _ _ =>
    !l.debug && Operator.priority l.text == Operator.priority op && Operator.isAssociative op
  | _ => false

/-- The node is an operation whose right operand goes on with the chain. -/
def isChained : Expr → Bool
  | .binary l _ b => continues l.text b
  | _ => false

/-- Turns `a op (b op' c)` into `(a op b) op' c` as long as the right operand goes on with the chain. The
outer node keeps the mark. -/
def rotateLeft : Label → Expr → Expr → Expr
  | l, a, .binary l' b c =>
    if continues l.text (.binary l' b c) then
      rotateLeft { l' with debug := l.debug } (rotateLeft { l with debug := false } a b) c
    else .binary l a (.binary l' b c)
  | l, a, r => .binary l a r

mutual

/-- The tree with all its chains grouped from the left. -/
def leftAssociate : Expr → Expr
  | .leaf l a => .leaf l a
  | .unary l suffix e => .unary l suffix (leftAssociate e)
  | .binary l a b => rotateLeft l (leftAssociate a) (leftAssociate b)
  | .call l as => .call l (leftAssociateList as)
  | .array l rs => .array l (leftAssociateRows rs)

def leftAssociateList : List Expr → List Expr
  | [] => []
  | e :: es => leftAssociate e :: leftAssociateList es

def leftAssociateRows : List (List Expr) → List (List Expr)
  | [] => []
  | r :: rs => leftAssociateList r :: leftAssociateRows rs

end

mutual

/-- The tree with its chains grouped as their texts read. -/
def reassociate : Expr → Expr
  | .leaf l a => .leaf l a
  | .unary l suffix e => .unary l suffix (reassociate e)
  | .binary l a b => regroup l (reassociate a) b (reassociate b)
  | .call l as => .call l (reassociateList as)
  | .array l rs => .array l (reassociateRows rs)

/-- Puts `a op` before a right operand; `whole` is the operand with its chains regrouped. Where the
operand `b op' c` goes on with the chain, `a op` comes before `b` alone, or before the first operand
of `b` in turn unless `b` stands in parentheses. -/
def regroup : Label → Expr → Expr → Expr → Expr
  | l, a, .binary l' b c, whole =>
    if continues l.text (.binary l' b c) then
      regroup { l' with debug := l.debug }
        (if leftNeedsParens l'.text b then .binary { l with debug := false } a (reassociate b)
         else regroup { l with debug := false } a b (reassociate b))
        c (reassociate c)
    else .binary l a whole
  | l, a, _, whole => .binary l a whole

def reassociateList : List Expr → List Expr
  | [] => []
  | e :: es => reassociate e :: reassociateList es

def reassociateRows : List (List Expr) → List (List Expr)
  | [] => []
  | r :: rs => reassociateList r :: reassociateRows rs

end

theorem leftAssociateList_eq_map (es : List Expr) : leftAssociateList es = es.map leftAssociate := by
  induction es with
  | nil => rfl
  | cons e es ih => rw [leftAssociateList, ih, List.map_cons]

theorem leftAssociateRows_eq_map (rs : List (List Expr)) :
    leftAssociateRows rs = rs.map (List.map leftAssociate) := by
  induction rs with
  | nil => rfl
  | cons r rs ih => rw [leftAssociateRows, ih, leftAssociateList_eq_map, List.map_cons]

theorem reassociateList_eq_map (es : List Expr) : reassociateList es = es.map reassociate := by
  induction es with
  | nil => rfl
  | cons e es ih => rw [reassociateList, ih, List.map_cons]

theorem reassociateRows_eq_map (rs : List (List Expr)) :
    reassociateRows rs = rs.map (List.map reassociate) := by
  induction rs with
  | nil => rfl
  | cons r rs ih => rw [reassociateRows, ih, reassociateList_eq_map, List.map_cons]

variable {l l' : Label} {a b c r whole : Expr}

theorem rotateLeft_of_continues (h : continues l.text (.binary l' b c) = true) :
    rotateLeft l a (.binary l' b c) =
      rotateLeft { l' with debug := l.debug } (rotateLeft { l with debug := false } a b) c := by
  rw [rotateLeft, if_pos h]

theorem rotateLeft_of_not_continues (h : continues l.text r = false) :
    rotateLeft l a r = .binary l a r := by
  cases r with
  | binary l' b c => rw [rotateLeft, if_neg (by simp [h])]
  | _ => rfl

theorem regroup_of_continues (h : continues l.text (.binary l' b c) = true) :
    regroup l a (.binary l' b c) whole =
      regroup { l' with debug := l.debug }
        (if leftNeedsParens l'.text b then .binary { l with debug := false } a (reassociate b)
         else regroup { l with debug := false } a b (reassociate b))
        c (reassociate c) := by
  rw [regroup, if_pos h]

theorem regroup_of_not_continues (h : continues l.text r = false) :
    regroup l a r whole = .binary l a whole := by
  cases r with
  | binary l' b c => rw [regroup, if_neg (by simp [h])]
  | _ =>
    rw [regroup]
    nofun

theorem continues_binary : continues l.text (.binary l' b c) = true ↔
    l'.debug = false ∧ Operator.priority l'.text = Operator.priority l.text ∧
      Operator.isAssociative l.text = true := by
  simp [continues, and_assoc]

/-! ### Regrouping is associative -/

/-- Rotating into a chain that has been rotated is rotating twice. -/
theorem rotateLeft_rotateLeft (h : continues l.text (.binary l' b c) = true) (a : Expr) :
    rotateLeft l a (rotateLeft l' b c) =
      rotateLeft { l' with debug := l.debug } (rotateLeft { l with debug := false } a b) c := by
  obtain ⟨hdebug, hpriority, hassociative⟩ := continues_binary.mp h
  induction c generalizing l l' a b with
  | binary m x y ihx ihy =>
    by_cases hm : continues l'.text (.binary m x y) = true
    · obtain ⟨hdebug', hpriority', hassociative'⟩ := continues_binary.mp hm
      have hpast := hpriority'.trans hpriority
      have hwhole : continues l.text
          (.binary { m with debug := l'.debug } (rotateLeft { l' with debug := false } b x) y) = true :=
        continues_binary.mpr ⟨hdebug, hpast, hassociative⟩
      have hfirst : continues ({ l with debug := false } : Label).text
          (.binary { l' with debug := false } b x) = true :=
        continues_binary.mpr ⟨rfl, hpriority, hassociative⟩
      have houter := ihy hwhole a hdebug hpast hassociative
      have hinner := ihx hfirst a rfl hpriority hassociative
      have houtermost : continues ({ l' with debug := l.debug } : Label).text (.binary m x y) = true :=
        hm
      rw [rotateLeft_of_continues hm, houter, hinner, rotateLeft_of_continues houtermost]
    · have hright : rotateLeft l' b (.binary m x y) = .binary l' b (.binary m x y) :=
        rotateLeft_of_not_continues (by simpa using hm)
      rw [hright, rotateLeft_of_continues h]
  | _ => exact rotateLeft_of_continues h

theorem leftAssociate_binary (l : Label) (a b : Expr) :
    leftAssociate (.binary l a b) = rotateLeft l (leftAssociate a) (leftAssociate b) := by
  rw [leftAssociate]

theorem leftAssociate_regroup (h : continues l.text r = false)
    (hwhole : leftAssociate (reassociate r) = leftAssociate r) :
    leftAssociate (regroup l a r (reassociate r)) =
      rotateLeft l (leftAssociate a) (leftAssociate r) := by
  rw [regroup_of_not_continues h, leftAssociate_binary, hwhole]

/-- A chain that is grouped as its text reads is the same chain. -/
theorem leftAssociate_reassociate_and_regroup (r : Expr) :
    leftAssociate (reassociate r) = leftAssociate r ∧
      ∀ l a, leftAssociate (regroup l a r (reassociate r)) =
        rotateLeft l (leftAssociate a) (leftAssociate r) := by
  induction r with
  | binary l' b c ihb ihc =>
    have hwhole : leftAssociate (reassociate (.binary l' b c)) = leftAssociate (.binary l' b c) := by
      rw [reassociate, ihc.2, ihb.1, leftAssociate]
    refine ⟨hwhole, fun l a => ?_⟩
    by_cases h : continues l.text (.binary l' b c) = true
    · have hinner : leftAssociate
          (if leftNeedsParens l'.text b then .binary { l with debug := false } a (reassociate b)
           else regroup { l with debug := false } a b (reassociate b)) =
          rotateLeft { l with debug := false } (leftAssociate a) (leftAssociate b) := by
        split
        · rw [leftAssociate, ihb.1]
        · exact ihb.2 _ a
      have hbinary : continues l.text (.binary l' (leftAssociate b) (leftAssociate c)) = true := h
      rw [regroup_of_continues h, ihc.2, hinner, leftAssociate, rotateLeft_rotateLeft hbinary]
    · exact leftAssociate_regroup (by simpa using h) hwhole
  | leaf l' atom => exact ⟨rfl, fun l a => leftAssociate_regroup rfl rfl⟩
  | unary l' suffix e ih =>
    have hwhole : leftAssociate (reassociate (.unary l' suffix e)) =
        leftAssociate (.unary l' suffix e) := by
      rw [reassociate, leftAssociate, ih.1, leftAssociate]
    exact ⟨hwhole, fun l a => leftAssociate_regroup rfl hwhole⟩
  | call l' as ih =>
    have hwhole : leftAssociate (reassociate (.call l' as)) = leftAssociate (.call l' as) := by
      rw [reassociate, leftAssociate, leftAssociate, reassociateList_eq_map,
        leftAssociateList_eq_map, leftAssociateList_eq_map, List.map_map]
      exact congrArg (Expr.call l') (List.map_congr_left fun e he => (ih e he).1)
    exact ⟨hwhole, fun l a => leftAssociate_regroup rfl hwhole⟩
  | array l' rs ih =>
    have hwhole : leftAssociate (reassociate (.array l' rs)) = leftAssociate (.array l' rs) := by
      rw [reassociate, leftAssociate, leftAssociate, reassociateRows_eq_map,
        leftAssociateRows_eq_map, leftAssociateRows_eq_map, List.map_map]
      refine congrArg (Expr.array l') (List.map_congr_left fun r hr => ?_)
      rw [Function.comp_apply, List.map_map]
      exact List.map_congr_left fun e he => (ih r hr e he).1
    exact ⟨hwhole, fun l a => leftAssociate_regroup rfl hwhole⟩

/-! ### Trees without such chains -/

/-- A tree in which no right operand goes on with a chain is grouped as its text reads. -/
theorem reassociate_eq_self {e : Expr} (h : ∀ n ∈ e.nodes, n.isChained = false) :
    e.reassociate = e := by
  induction e with
  | leaf l atom => rw [reassociate]
  | unary l suffix e ih =>
    rw [forall_nodes_unary] at h
    rw [reassociate, ih h.2]
  | binary l a b iha ihb =>
    rw [forall_nodes_binary] at h
    obtain ⟨hright, ha, hb⟩ := h
    rw [reassociate, regroup_of_not_continues hright, iha ha, ihb hb]
  | call l as ih =>
    rw [forall_nodes_call] at h
    rw [reassociate, reassociateList_eq_map]
    have hsame : as.map reassociate = as.map id :=
      List.map_congr_left fun e he => ih e he (h.2 e he)
    rw [hsame, List.map_id]
  | array l rs ih =>
    rw [forall_nodes_array] at h
    rw [reassociate, reassociateRows_eq_map]
    have hsame : rs.map (List.map reassociate) = rs.map id := by
      refine List.map_congr_left fun r hr => ?_
      have hrow : r.map reassociate = r.map id :=
        List.map_congr_left fun e he => ih r hr e he (h.2 r hr e he)
      rw [hrow, List.map_id, id]
    rw [hsame, List.map_id]

/-- How many nodes a tree has. -/
def size (e : Expr) : Nat :=
  e.nodes.length

theorem size_binary (l : Label) (a b : Expr) : (binary l a b).size = a.size + b.size + 1 := by
  simp [size, nodes_binary]

/-- Regrouping keeps the left operand within the left operand of the result, and makes that larger where
the right operand goes on with the chain. -/
theorem exists_regroup (l : Label) (a r whole : Expr) :
    ∃ m x y, regroup l a r whole = .binary m x y ∧ a.size ≤ x.size ∧
      (continues l.text r = true → a.size < x.size) := by
  induction r generalizing l a whole with
  | binary l' b c ihb ihc =>
    by_cases h : continues l.text (.binary l' b c) = true
    · have hinner : a.size < (if leftNeedsParens l'.text b then
          .binary { l with debug := false } a (reassociate b)
          else regroup { l with debug := false } a b (reassociate b)).size := by
        split
        · rw [size_binary]
          omega
        · obtain ⟨m, x, y, hregroup, hle, -⟩ := ihb { l with debug := false } a (reassociate b)
          rw [hregroup, size_binary]
          omega
      obtain ⟨m, x, y, hregroup, hle, -⟩ := ihc { l' with debug := l.debug } _ (reassociate c)
      rw [regroup_of_continues h, hregroup]
      exact ⟨m, x, y, rfl, by omega, fun _ => by omega⟩
    · rw [regroup_of_not_continues (by simpa using h)]
      exact ⟨l, a, whole, rfl, Nat.le_refl _, fun hcontinues => absurd hcontinues h⟩
  | _ =>
    rw [regroup_of_not_continues rfl]
    exact ⟨l, a, whole, rfl, Nat.le_refl _, nofun⟩

theorem size_call (l : Label) (as : List Expr) : (call l as).size = (as.map size).sum + 1 := by
  rw [size, nodes_call, List.length_cons, List.length_flatMap]
  rfl

theorem size_array (l : Label) (rs : List (List Expr)) :
    (array l rs).size = (rs.map fun r => (r.map size).sum).sum + 1 := by
  rw [size, nodes_array, List.length_cons, List.length_flatMap]
  simp only [List.length_flatMap]
  rfl

theorem size_reassociate_and_regroup (r : Expr) :
    (reassociate r).size = r.size ∧
      ∀ l a, (regroup l a r (reassociate r)).size = a.size + r.size + 1 := by
  have halone {r : Expr} (h : (reassociate r).size = r.size) (l : Label) (a : Expr)
      (hright : continues l.text r = false) :
      (regroup l a r (reassociate r)).size = a.size + r.size + 1 := by
    rw [regroup_of_not_continues hright, size_binary, h]
  induction r with
  | leaf l' atom => exact ⟨rfl, fun l a => halone rfl l a rfl⟩
  | unary l' suffix e ih =>
    have hwhole : (reassociate (.unary l' suffix e)).size = (unary l' suffix e).size := by
      rw [reassociate, size, nodes_unary, List.length_cons, size, nodes_unary, List.length_cons]
      exact congrArg (· + 1) ih.1
    exact ⟨hwhole, fun l a => halone hwhole l a rfl⟩
  | binary l' b c ihb ihc =>
    have hwhole : (reassociate (.binary l' b c)).size = (binary l' b c).size := by
      rw [reassociate, ihc.2, ihb.1, size_binary]
    refine ⟨hwhole, fun l a => ?_⟩
    by_cases h : continues l.text (.binary l' b c) = true
    · rw [regroup_of_continues h, ihc.2, size_binary]
      split
      · rw [size_binary, ihb.1]
        omega
      · rw [ihb.2]
        omega
    · exact halone hwhole l a (by simpa using h)
  | call l' as ih =>
    have hwhole : (reassociate (.call l' as)).size = (call l' as).size := by
      rw [reassociate, reassociateList_eq_map, size_call, size_call, List.map_map]
      exact congrArg (·.sum + 1) (List.map_congr_left fun e he => (ih e he).1)
    exact ⟨hwhole, fun l a => halone hwhole l a rfl⟩
  | array l' rs ih =>
    have hwhole : (reassociate (.array l' rs)).size = (array l' rs).size := by
      rw [reassociate, reassociateRows_eq_map, size_array, size_array, List.map_map]
      refine congrArg (·.sum + 1) (List.map_congr_left fun r hr => ?_)
      rw [Function.comp_apply, List.map_map]
      exact congrArg List.sum (List.map_congr_left fun e he => (ih r hr e he).1)
    exact ⟨hwhole, fun l a => halone hwhole l a rfl⟩

/-! ### Equality -/

theorem sameList_iff (es fs : List Expr) :
    sameList es fs = true ↔ List.Forall₂ (fun e f => same e f = true) es fs := by
  induction es generalizing fs with
  | nil => cases fs <;> simp [sameList]
  | cons e es ih => cases fs <;> simp [sameList, ih]

theorem sameRows_iff (rs ss : List (List Expr)) :
    sameRows rs ss = true ↔
      List.Forall₂ (List.Forall₂ fun e f => same e f = true) rs ss := by
  induction rs generalizing ss with
  | nil => cases ss <;> simp [sameRows]
  | cons r rs ih => cases ss <;> simp [sameRows, sameList_iff, ih]

/-- Induction over two equal trees, with a hypothesis for each pair of arguments and of cells. -/
@[elab_as_elim]
theorem sameInduction {motive : Expr → Expr → Prop}
    (leaf : ∀ l l' a a', same (.leaf l a) (.leaf l' a') = true →
      motive (.leaf l a) (.leaf l' a'))
    (unary : ∀ l l' suffix suffix' e e', motive e e' →
      motive (.unary l suffix e) (.unary l' suffix' e'))
    (binary : ∀ l l' a a' b b', motive a a' → motive b b' →
      motive (.binary l a b) (.binary l' a' b'))
    (call : ∀ l l' as as', List.Forall₂ motive as as' → motive (.call l as) (.call l' as'))
    (array : ∀ l l' rs rs', List.Forall₂ (List.Forall₂ motive) rs rs' →
      motive (.array l rs) (.array l' rs'))
    {e f : Expr} (h : same e f = true) : motive e f := by
  have hlist {es fs : List Expr} (hes : ∀ e ∈ es, ∀ {f}, same e f = true → motive e f)
      (hsame : List.Forall₂ (fun e f => same e f = true) es fs) : List.Forall₂ motive es fs :=
    ((List.forall₂_and_left _ _).mpr ⟨hes, hsame⟩).imp fun e f h => h.1 h.2
  induction e generalizing f with
  | leaf l a =>
    cases f with
    | leaf l' a' => exact leaf l l' a a' h
    | _ => cases h
  | unary l suffix e ih =>
    cases f with
    | unary l' suffix' e' =>
      simp only [same, Bool.and_eq_true] at h
      exact unary l l' suffix suffix' e e' (ih h.2)
    | _ => cases h
  | binary l a b iha ihb =>
    cases f with
    | binary l' a' b' =>
      simp only [same, Bool.and_eq_true] at h
      exact binary l l' a a' b b' (iha h.1.2) (ihb h.2)
    | _ => cases h
  | call l as ih =>
    cases f with
    | call l' as' =>
      simp only [same, Bool.and_eq_true, sameList_iff] at h
      exact call l l' as as' (hlist ih h.2)
    | _ => cases h
  | array l rs ih =>
    cases f with
    | array l' rs' =>
      simp only [same, Bool.and_eq_true, sameRows_iff] at h
      have hrows : List.Forall₂ (List.Forall₂ motive) rs rs' :=
        ((List.forall₂_and_left _ _).mpr ⟨ih, h.2⟩).imp fun r r' h => hlist h.1 h.2
      exact array l l' rs rs' hrows
    | _ => cases h

theorem size_eq_of_same {e f : Expr} (h : same e f = true) : e.size = f.size := by
  have hmap {α : Type} {w : α → Nat} {l m : List α} (h : List.Forall₂ (fun x y => w x = w y) l m) :
      l.map w = m.map w := by
    rw [← List.forall₂_eq_eq_eq, List.forall₂_map_left_iff, List.forall₂_map_right_iff]
    exact h
  refine sameInduction ?leaf ?unary ?binary ?call ?array h
  case leaf =>
    intro l l' a a' _
    rw [size, size, nodes_leaf, nodes_leaf]
    rfl
  case unary =>
    intro l l' suffix suffix' e e' ih
    simpa [size, nodes_unary] using ih
  case binary =>
    intro l l' a a' b b' iha ihb
    rw [size_binary, size_binary, iha, ihb]
  case call =>
    intro l l' as as' ih
    rw [size_call, size_call, hmap ih]
  case array =>
    intro l l' rs rs' ih
    have hrows : (rs.map fun r => (r.map size).sum) = rs'.map fun r => (r.map size).sum :=
      hmap (ih.imp fun r r' h => congrArg List.sum (hmap h))
    rw [size_array, size_array, hrows]

theorem same_self {V : Vocabulary} (hV : ∀ text atom, V.leaf text atom → atom.IsRegular)
    {e : Expr} (h : e.WellFormed V) : same e e = true := by
  induction e with
  | leaf l atom =>
    rw [wellFormed_leaf] at h
    cases atom with
    | number value =>
      have hnan : value ≠ .nan := hV l.text (.number value) h
      cases value with
      | nan => exact absurd rfl hnan
      | finite negative mantissa exponent => simp [same, Number.same]
      | infinite negative => simp [same, Number.same]
    | other kind => exact (hV l.text (.other kind) h).elim
    | _ => simp [same]
  | unary l suffix e ih =>
    rw [wellFormed_unary] at h
    simp [same, ih h.2]
  | binary l a b iha ihb =>
    rw [wellFormed_binary] at h
    simp [same, iha h.2.1, ihb h.2.2]
  | call l as ih =>
    rw [wellFormed_call] at h
    have has : sameList as as = true :=
      (sameList_iff as as).mpr (List.forall₂_same.mpr fun e he => ih e he (h.2 e he))
    simp [same, has]
  | array l rs ih =>
    rw [wellFormed_array] at h
    have hrs : sameRows rs rs = true :=
      (sameRows_iff rs rs).mpr (List.forall₂_same.mpr fun r hr =>
        List.forall₂_same.mpr fun e he => ih r hr e he (h.2 r hr e he))
    simp [same, hrs]

/-- A tree that equals its regrouped form has no chain to regroup. -/
theorem isChained_of_same_reassociate {e : Expr} (h : same e.reassociate e = true) :
    ∀ n ∈ e.nodes, n.isChained = false := by
  induction e with
  | leaf l atom => exact (forall_nodes_leaf l atom).mpr rfl
  | unary l suffix e ih =>
    rw [reassociate] at h
    simp only [same, Bool.and_eq_true] at h
    exact (forall_nodes_unary l suffix e).mpr ⟨rfl, ih h.2⟩
  | binary l a b iha ihb =>
    rw [reassociate] at h
    have hright : continues l.text b = false := by
      by_contra hcontinues
      obtain ⟨m, x, y, hregroup, -, hlt⟩ := exists_regroup l a.reassociate b b.reassociate
      rw [hregroup] at h
      simp only [same, Bool.and_eq_true] at h
      have hleft := size_eq_of_same h.1.2
      have hsize := (size_reassociate_and_regroup a).1
      have := hlt (by simpa using hcontinues)
      omega
    rw [regroup_of_not_continues hright] at h
    simp only [same, Bool.and_eq_true] at h
    exact (forall_nodes_binary l a b).mpr ⟨hright, iha h.1.2, ihb h.2⟩
  | call l as ih =>
    rw [reassociate, reassociateList_eq_map] at h
    simp only [same, Bool.and_eq_true, sameList_iff, List.forall₂_map_left_iff,
      List.forall₂_same] at h
    exact (forall_nodes_call l as).mpr ⟨rfl, fun e he => ih e he (h.2 e he)⟩
  | array l rs ih =>
    rw [reassociate, reassociateRows_eq_map] at h
    simp only [same, Bool.and_eq_true, sameRows_iff, List.forall₂_map_left_iff,
      List.forall₂_same] at h
    exact (forall_nodes_array l rs).mpr ⟨rfl, fun r hr e he => ih r hr e he (h.2 r hr e he)⟩

/-! ### Symmetry -/

theorem sameList_comm {es : List Expr} (h : ∀ e ∈ es, ∀ f, same e f = same f e) (fs : List Expr) :
    sameList es fs = sameList fs es := by
  induction es generalizing fs with
  | nil => cases fs <;> rfl
  | cons e es ih =>
    obtain ⟨he, hes⟩ := List.forall_mem_cons.mp h
    cases fs with
    | nil => rfl
    | cons f fs => rw [sameList, he f, ih hes fs, sameList]

theorem same_comm (e f : Expr) : same e f = same f e := by
  induction e generalizing f with
  | leaf l a =>
    cases f with
    | leaf l' a' =>
      have hdebug : (l.debug == l'.debug) = (l'.debug == l.debug) := BEq.comm
      have htext : (l.text == l'.text) = (l'.text == l.text) := BEq.comm
      cases a <;> cases a' <;>
        exact congrArg₂ and hdebug (by first | rfl | exact htext | exact Number.same_comm _ _ |
          exact Bool.beq_comm)
    | _ => rfl
  | unary l suffix e ih =>
    cases f with
    | unary l' suffix' f =>
      rw [same, same, ih, BEq.comm (a := l.debug), BEq.comm (a := l.text), BEq.comm (a := suffix)]
    | _ => rfl
  | binary l a b iha ihb =>
    cases f with
    | binary l' a' b' => rw [same, same, iha, ihb, BEq.comm (a := l.debug), BEq.comm (a := l.text)]
    | _ => rfl
  | call l as ih =>
    cases f with
    | call l' as' =>
      rw [same, same, sameList_comm ih, BEq.comm (a := l.debug), BEq.comm (a := l.text)]
    | _ => rfl
  | array l rs ih =>
    have hrows (ss : List (List Expr)) : sameRows rs ss = sameRows ss rs := by
      induction rs generalizing ss with
      | nil => cases ss <;> rfl
      | cons r rs ihrows =>
        obtain ⟨hr, hrs⟩ := List.forall_mem_cons.mp ih
        cases ss with
        | nil => rfl
        | cons s ss => rw [sameRows, sameList_comm hr, ihrows hrs ss, sameRows]
    cases f with
    | array l' rs' => rw [same, same, hrows, BEq.comm (a := l.debug)]
    | _ => rfl

/-! ### Places -/

theorem sameList_unplaced {es : List Expr} (h : ∀ e ∈ es, ∀ f, same e.unplaced f = same e f)
    (fs : List Expr) : sameList (es.map unplaced) fs = sameList es fs := by
  induction es generalizing fs with
  | nil => rfl
  | cons e es ih =>
    obtain ⟨he, hes⟩ := List.forall_mem_cons.mp h
    cases fs with
    | nil => rfl
    | cons f fs => rw [List.map_cons, sameList, he f, ih hes fs, sameList]

/-- Places do not count for equality. -/
theorem same_unplaced (e f : Expr) : same e.unplaced f = same e f := by
  induction e generalizing f with
  | leaf l atom => cases f <;> simp [unplaced_leaf, same, Label.unplaced]
  | unary l suffix e ih => cases f <;> simp [unplaced_unary, same, Label.unplaced, ih]
  | binary l a b iha ihb => cases f <;> simp [unplaced_binary, same, Label.unplaced, iha, ihb]
  | call l as ih => cases f <;> simp [unplaced_call, same, Label.unplaced, sameList_unplaced ih]
  | array l rs ih =>
    have hrows (ss : List (List Expr)) :
        sameRows (rs.map (List.map unplaced)) ss = sameRows rs ss := by
      induction rs generalizing ss with
      | nil => rfl
      | cons r rs ihrows =>
        obtain ⟨hr, hrs⟩ := List.forall_mem_cons.mp ih
        cases ss with
        | nil => rfl
        | cons s ss => rw [List.map_cons, sameRows, sameList_unplaced hr, ihrows hrs ss, sameRows]
    cases f <;> simp [unplaced_array, same, Label.unplaced, hrows]

theorem continues_unplaced (op : String) (e : Expr) :
    continues op e.unplaced = continues op e := by
  cases e <;> simp [unplaced_leaf, unplaced_unary, unplaced_binary, unplaced_call, unplaced_array,
    continues, Label.unplaced]

theorem unplaced_rotateLeft (l : Label) (a b : Expr) :
    (rotateLeft l a b).unplaced = rotateLeft l.unplaced a.unplaced b.unplaced := by
  induction b generalizing l a with
  | binary l' b c ihb ihc =>
    by_cases h : continues l.text (.binary l' b c) = true
    · have hunplaced : continues l.unplaced.text (.binary l'.unplaced b.unplaced c.unplaced) = true :=
        h
      rw [rotateLeft_of_continues h, ihc, ihb, unplaced_binary, rotateLeft_of_continues hunplaced]
      rfl
    · have hunplaced : continues l.unplaced.text (Expr.unplaced (.binary l' b c)) = false := by
        rw [continues_unplaced]
        exact Bool.eq_false_iff.mpr h
      rw [rotateLeft_of_not_continues (by simpa using h), rotateLeft_of_not_continues hunplaced,
        unplaced_binary]
  | _ =>
    rw [rotateLeft_of_not_continues rfl, unplaced_binary, rotateLeft_of_not_continues]
    rw [continues_unplaced]
    rfl

/-- Grouping chains from the left does not depend on places. -/
theorem unplaced_leftAssociate (e : Expr) :
    (leftAssociate e).unplaced = leftAssociate e.unplaced := by
  induction e with
  | leaf l atom => rw [leftAssociate, unplaced_leaf, leftAssociate]
  | unary l suffix e ih => rw [leftAssociate, unplaced_unary, unplaced_unary, leftAssociate, ih]
  | binary l a b iha ihb =>
    rw [leftAssociate, unplaced_rotateLeft, unplaced_binary, leftAssociate, iha, ihb]
  | call l as ih =>
    rw [leftAssociate, unplaced_call, unplaced_call, leftAssociate, leftAssociateList_eq_map,
      leftAssociateList_eq_map, List.map_map, List.map_map]
    exact congrArg (Expr.call _) (List.map_congr_left ih)
  | array l rs ih =>
    rw [leftAssociate, unplaced_array, unplaced_array, leftAssociate, leftAssociateRows_eq_map,
      leftAssociateRows_eq_map, List.map_map, List.map_map]
    refine congrArg (Expr.array _) (List.map_congr_left fun r hr => ?_)
    rw [Function.comp_apply, Function.comp_apply, List.map_map, List.map_map]
    exact List.map_congr_left (ih r hr)

end Expr

end SheetFormula
