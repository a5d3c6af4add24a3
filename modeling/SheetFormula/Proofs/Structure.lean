import SheetFormula.Proofs.Generation
import SheetFormula.Proofs.Recast

/-!
The structure of a formula: its tree without places, numbers, strings and the spelling of references.
Code is generated from the structure alone.
-/

set_option autoImplicit false

namespace SheetFormula

/-- Takes the value of a number, the text of a string, and all of a reference but whether it names a
range. -/
def Casting.structural : Casting
  | _, .number _ => ("", .number .zero)
  | _, .string => ("", .string)
  | text, .reference => (if Expr.namesRange text then ":" else "", .reference)
  | text, atom => (text, atom)

/-- The structure of a tree. -/
abbrev Expr.structure (e : Expr) : Expr :=
  e.recast .structural

namespace Casting

theorem namesRange_structural (text : String) :
    Expr.namesRange (structural text .reference).1 = Expr.namesRange text := by
  simp only [structural]
  cases h : Expr.namesRange text <;> simp [Expr.namesRange]

end Casting

namespace Generate

variable {registry : Registry} {targeting : Targeting} {context : Context} {c : Counters}

/-- The code of a leaf is that of its structure. -/
theorem leaf_structural (l : Label) (atom : Atom) (context : Context) (c : Counters) {p : Piece}
    (h : leaf l atom context c = .ok p) :
    leaf ⟨(Casting.structural l.text atom).1, l.debug, ⟨0, 0⟩⟩ (Casting.structural l.text atom).2
      context c = .ok p := by
  cases atom with
  | reference =>
    simp only [leaf] at h
    simp only [leaf, Casting.namesRange_structural]
    exact h
  | other kind => cases h
  | _ => exact h

/-- Sequences of code for equal structures are equal. -/
theorem Sequence.unique {contexts : Nat → Context} {position : Nat} {es es' : List Expr}
    {ps ps' : Pieces} (h : Sequence registry targeting contexts position c es ps)
    (h' : Sequence registry targeting contexts position c es' ps')
    (hes : es.map Expr.structure = es'.map Expr.structure)
    (ih : ∀ e ∈ es, ∀ e' context c p p', e.structure = e'.structure →
      expr registry targeting context c e = .ok p →
      expr registry targeting context c e' = .ok p' → p = p') : ps = ps' := by
  induction h generalizing es' ps' with
  | nil position c =>
    cases h' with
    | nil => rfl
    | cons => cases hes
  | cons head tail ihtail =>
    cases h' with
    | nil => cases hes
    | cons head' tail' =>
      obtain ⟨he, hes⟩ := List.cons.inj hes
      obtain ⟨ihhead, ih⟩ := List.forall_mem_cons.mp ih
      obtain rfl := ihhead _ _ _ _ _ he head head'
      obtain rfl := ihtail tail' hes ih
      rfl

theorem announce_congr {l l' : Label} (h : l.debug = l'.debug) (p : Piece) :
    announce l p = announce l' p := by
  rw [announce, announce, h]

theorem eq_of_unplaced_eq {l l' : Label} (h : l.unplaced = l'.unplaced) :
    l.text = l'.text ∧ l.debug = l'.debug := by
  simpa [Label.unplaced] using h

theorem length_headD_map {α β : Type} (f : α → β) (rows : List (List α)) :
    ((rows.map (List.map f)).headD []).length = (rows.headD []).length := by
  cases rows <;> simp

/-- Trees of one structure have the same code. -/
theorem expr_unique {e e' : Expr} {p p' : Piece} (he : e.structure = e'.structure)
    (h : expr registry targeting context c e = .ok p)
    (h' : expr registry targeting context c e' = .ok p') : p = p' := by
  induction e generalizing e' context c p p' with
  | leaf l atom =>
    cases e' with
    | leaf l' atom' =>
      obtain ⟨q, hq, rfl⟩ := expr_leaf_eq_ok h
      obtain ⟨q', hq', rfl⟩ := expr_leaf_eq_ok h'
      simp only [Expr.structure, Expr.recast_leaf, Expr.leaf.injEq] at he
      have hleaf := leaf_structural l atom context c hq
      rw [he.1, he.2, leaf_structural l' atom' context c hq'] at hleaf
      cases hleaf
      exact announce_congr (congrArg Label.debug he.1) q
    | _ => simp [Expr.structure] at he
  | unary l suffix a ih =>
    cases e' with
    | unary l' suffix' a' =>
      obtain ⟨q, hq, rfl⟩ := expr_unary_eq_ok h
      obtain ⟨q', hq', rfl⟩ := expr_unary_eq_ok h'
      simp only [Expr.structure, Expr.recast_unary, Expr.unary.injEq] at he
      obtain ⟨htext, hdebug⟩ := eq_of_unplaced_eq he.1
      obtain rfl := ih he.2.2 hq hq'
      rw [htext, announce_congr hdebug]
    | _ => simp [Expr.structure] at he
  | binary l a b iha ihb =>
    cases e' with
    | binary l' a' b' =>
      obtain ⟨name, q, r, hname, hq, hr, rfl⟩ := expr_binary_eq_ok h
      obtain ⟨name', q', r', hname', hq', hr', rfl⟩ := expr_binary_eq_ok h'
      simp only [Expr.structure, Expr.recast_binary, Expr.binary.injEq] at he
      obtain ⟨htext, hdebug⟩ := eq_of_unplaced_eq he.1
      obtain rfl := iha he.2.1 hq hq'
      obtain rfl := ihb he.2.2 hr hr'
      rw [htext, hname'] at hname
      cases hname
      exact announce_congr hdebug _
    | _ => simp [Expr.structure] at he
  | call l as ih =>
    cases e' with
    | call l' as' =>
      obtain ⟨qs, hqs, rfl⟩ := expr_call_eq_ok h
      obtain ⟨qs', hqs', rfl⟩ := expr_call_eq_ok h'
      simp only [Expr.structure, Expr.recast_call, Expr.call.injEq] at he
      obtain ⟨htext, hdebug⟩ := eq_of_unplaced_eq he.1
      have hlength : as.length = as'.length := by simpa using congrArg List.length he.2
      rw [htext, hlength] at hqs
      obtain rfl := hqs.unique hqs' he.2 fun a ha _ _ _ _ _ => ih a ha
      rw [htext, announce_congr hdebug]
    | _ => simp [Expr.structure] at he
  | array l rs ih =>
    cases e' with
    | array l' rs' =>
      obtain ⟨qs, hqs, -, rfl⟩ := expr_array_eq_ok h
      obtain ⟨qs', hqs', -, rfl⟩ := expr_array_eq_ok h'
      simp only [Expr.structure, Expr.recast_array, Expr.array.injEq] at he
      have hcolumns : (rs.headD []).length = (rs'.headD []).length := by
        rw [← length_headD_map Expr.structure rs, he.2, length_headD_map]
      have hcells : rs.flatten.map Expr.structure = rs'.flatten.map Expr.structure := by
        rw [List.map_flatten, List.map_flatten]
        exact congrArg List.flatten he.2
      obtain rfl := hqs.unique hqs' hcells fun a ha _ _ _ _ _ => by
        obtain ⟨r, hr, ha⟩ := List.mem_flatten.mp ha
        exact ih r hr a ha
      rw [hcolumns, announce_congr (eq_of_unplaced_eq he.1).2]
    | _ => simp [Expr.structure] at he

end Generate

/-- Trees of one structure have the same routine. -/
theorem Routine.ofExpr_unique {registry : Registry} {targeting : Targeting} {key : String}
    {e e' : Expr} {r r' : Routine} (he : e.structure = e'.structure)
    (h : Routine.ofExpr registry targeting key e = .ok r)
    (h' : Routine.ofExpr registry targeting key e' = .ok r') : r = r' := by
  obtain ⟨p, hp, h⟩ := Generate.eq_ok_of_bind h
  obtain ⟨p', hp', h'⟩ := Generate.eq_ok_of_bind h'
  obtain rfl := Generate.expr_unique he hp hp'
  cases h
  cases h'
  rfl

end SheetFormula
