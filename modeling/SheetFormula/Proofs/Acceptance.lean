import SheetFormula.Proofs.Compiling
import SheetFormula.Proofs.Generation
import SheetFormula.Proofs.Wording

/-!
What is compiled. A tree is declared where every call agrees with the signature of its function and every
array is a rectangle; code is generated for exactly the declared trees, and a refusal says that a function
is unknown only where one is. So a compiler with nothing at hand accepts the formulas that are read as
declared trees and no others. A refusal of any kind leaves the store as it was.
-/

set_option autoImplicit false

namespace SheetFormula

/-! ### Declarations -/

/-- The declaration admits an argument: it gets a reference where it wants the bare reference, and no
literal where it names types of ranges only. -/
structure Argument.Admits (a : Argument) (e : Expr) : Prop where
  reference : .reference ∈ a.types → e.kind = .reference
  range : a.types ≠ [] → (∀ t ∈ a.types, t.isRange = true) →
    e.kind ∉ [.number, .string, .boolean]

namespace Signature

/-- The numbers of arguments are those that follow from the declarations. -/
structure Derived (s : Signature) : Prop where
  requiredCount : s.requiredCount = mustCount s.arguments
  mostArguments? : s.mostArguments? =
    if groupSize s.arguments = 0 then some (s.arguments.length : Int) else none
  repeatingCount : s.repeatingCount = groupSize s.arguments
  optionalCount : s.optionalCount = mayCount s.arguments

theorem derived_describe (name : String) (arguments : List Argument) :
    (describe name arguments).Derived :=
  ⟨rfl, rfl, rfl, rfl⟩

variable {s : Signature} {count position : Int}

/-- The declaration at an index. -/
def declaration? (s : Signature) (index : Int) : Option Argument :=
  if 0 ≤ index then s.arguments[index.toNat]? else none

/-- The declaration at an index admits an argument. -/
def AdmitsAt (s : Signature) (index : Int) (e : Expr) : Prop :=
  ∃ a, s.declaration? index = some a ∧ a.Admits e

/-- A position of a call falls on a declaration. -/
def Reaches (s : Signature) (count position : Int) : Prop :=
  (s.target count position).known = true ∧ (s.target count position).index < s.arguments.length

/-- The function can be called with the arguments: their number is right, groups of repeating arguments
can be counted, and each argument that falls on a declaration is admitted by it. -/
structure Admits (s : Signature) (es : List Expr) : Prop where
  count : s.countFault? es.length = none
  groups : ¬ (s.repeatingStart?.isSome ∧ s.repeatingCount = 0)
  each : ∀ (i : Nat) (e : Expr), es[i]? = some e → s.Reaches es.length i →
    s.AdmitsAt (s.target es.length i).index e

/-- Each argument from a position on that falls on a declaration is admitted by it. -/
def AdmitsFrom (s : Signature) (count position : Nat) (es : List Expr) : Prop :=
  ∀ (i : Nat) (e : Expr), es[i]? = some e → s.Reaches count (position + i : Nat) →
    s.AdmitsAt (s.target count (position + i : Nat)).index e

theorem admitsFrom_cons {count position : Nat} (e : Expr) (es : List Expr) :
    s.AdmitsFrom count position (e :: es) ↔
      (s.Reaches count position → s.AdmitsAt (s.target count position).index e) ∧
        s.AdmitsFrom count (position + 1) es := by
  constructor
  · intro h
    refine ⟨h 0 e rfl, fun i e' he' => ?_⟩
    rw [show position + 1 + i = position + (i + 1) by omega]
    exact h (i + 1) e' he'
  · rintro ⟨hfirst, hrest⟩ (_ | i) e' he'
    · cases he'
      exact hfirst
    · rw [show position + (i + 1) = position + 1 + i by omega]
      exact hrest i e' he'

/-- All repeating declarations stand from the first of them on. -/
theorem groupSize_eq_countP_drop {start : Nat} (h : s.repeatingStart? = some start) :
    groupSize s.arguments = (s.arguments.drop start).countP (·.repeating) := by
  obtain ⟨hlt, -, hbefore⟩ := List.findIdx?_eq_some_iff_getElem.mp h
  have hnone : (s.arguments.take start).countP (·.repeating) = 0 := by
    refine List.countP_eq_zero.mpr fun a ha => ?_
    obtain ⟨i, hi, rfl⟩ := List.mem_take_iff_getElem.mp ha
    exact hbefore i (by omega)
  have hsplit : s.arguments.countP (·.repeating) =
      (s.arguments.take start).countP (·.repeating) +
        (s.arguments.drop start).countP (·.repeating) := by
    rw [← List.countP_append, List.take_append_drop]
  rw [groupSize, hsplit, hnone, Nat.zero_add]

theorem repeatingStart_add_groupSize_le {start : Nat} (h : s.repeatingStart? = some start) :
    start + groupSize s.arguments ≤ s.arguments.length := by
  obtain ⟨hlt, -⟩ := List.findIdx?_eq_some_iff_getElem.mp h
  have hle := List.countP_le_length (p := (·.repeating)) (l := s.arguments.drop start)
  rw [← groupSize_eq_countP_drop h, List.length_drop] at hle
  omega

theorem groupSize_pos {start : Nat} (h : s.repeatingStart? = some start) :
    0 < groupSize s.arguments := by
  obtain ⟨hlt, hrepeats, -⟩ := List.findIdx?_eq_some_iff_getElem.mp h
  exact List.countP_pos_iff.mpr ⟨_, List.getElem_mem hlt, hrepeats⟩

/-- Where declarations repeat, a group of them has at least one. -/
theorem Derived.groups (hs : s.Derived) : ¬ (s.repeatingStart?.isSome ∧ s.repeatingCount = 0) := by
  rintro ⟨hsome, hzero⟩
  obtain ⟨start, hstart⟩ := Option.isSome_iff_exists.mp hsome
  have hpos := groupSize_pos hstart
  have hsize := hs.repeatingCount
  omega

/-- A position that falls on a declaration has an index below the number of declarations. -/
theorem index_lt_of_known (hs : s.Derived) (h : (s.target count position).known = true) :
    (s.target count position).index < s.arguments.length := by
  unfold target at h ⊢
  cases hstart : s.repeatingStart? with
  | none =>
    simp only [hstart, Bool.decide_and, Bool.and_eq_true, decide_eq_true_eq] at h ⊢
    exact h.2
  | some start =>
    have hle := repeatingStart_add_groupSize_le hstart
    have hpos := groupSize_pos hstart
    simp only [hstart, hs.repeatingCount] at h ⊢
    split_ifs at h ⊢ with hnegative hbefore hrepeating hlt
    · change position < _
      omega
    · have hmod := Int.tmod_lt_of_pos (position - start) (b := groupSize s.arguments) (by omega)
      change (start : Int) + (position - start).tmod (groupSize s.arguments) < _
      omega
    · exact hlt
    · exact of_decide_eq_true h

/-- Past the whole groups there is less than one group left. -/
theorem sub_tailStart_lt {start : Nat} (hpos : 0 < s.repeatingCount)
    (hcount : position < count) (htail : s.tailStart start count ≤ position) :
    position - s.tailStart start count < s.repeatingCount := by
  unfold tailStart at htail ⊢
  dsimp only at htail ⊢
  have hrest := Int.mul_tdiv_add_tmod (count - start) s.repeatingCount
  have hmod := Int.tmod_lt_of_pos (count - start) (b := s.repeatingCount) (by omega)
  rw [Int.mul_comm] at hrest
  split_ifs at htail ⊢ <;> omega

/-- The index of a position of a call is no negative one, as long as the places of all declarations,
counted twice, are words. -/
theorem index_nonneg (hs : s.Derived) (hfits : 2 * s.arguments.length ≤ Word.greatest)
    (hposition : 0 ≤ position) (hcount : position < count) : 0 ≤ (s.target count position).index := by
  unfold target
  cases hstart : s.repeatingStart? with
  | none => exact hposition
  | some start =>
    have hle := repeatingStart_add_groupSize_le hstart
    have hpos := groupSize_pos hstart
    have hsize := hs.repeatingCount
    dsimp only
    split_ifs with hnegative hbefore hrepeating hlt
    · exact Int.le_refl 0
    · exact hposition
    · have hmod := Int.tmod_nonneg s.repeatingCount (a := position - start) (by omega)
      change 0 ≤ (start : Int) + (position - start).tmod s.repeatingCount
      omega
    · change 0 ≤ (start : Int) + s.repeatingCount + (position - s.tailStart start count)
      omega
    · have hgroup := sub_tailStart_lt (by omega) hcount (Int.not_lt.mp hrepeating)
      change 0 ≤ Word.wrap (start + s.repeatingCount + (position - s.tailStart start count))
      rw [Word.wrap_eq_self (by unfold Word.least; omega) (by omega)]
      omega

/-- A position that falls on a declaration has one to fall on. -/
theorem isSome_declaration?_of_known (hs : s.Derived)
    (hfits : 2 * s.arguments.length ≤ Word.greatest) (hposition : 0 ≤ position)
    (hcount : position < count) (h : (s.target count position).known = true) :
    (s.declaration? (s.target count position).index).isSome = true := by
  have hlt := index_lt_of_known hs h
  have hnonneg := index_nonneg hs hfits hposition hcount
  rw [declaration?, if_pos hnonneg, isSome_getElem?]
  omega

end Signature

namespace Expr

/-- The node agrees with the declarations: a call with the signature of its function, an array with
rows of one length. -/
def Conforms (registry : Registry) : Expr → Prop
  | .call l as => ∃ s, registry.get? (Text.upper l.text) = some s ∧ s.Admits as
  | .array _ rs => ∀ r ∈ rs, ∀ r' ∈ rs, r.length = r'.length
  | _ => True

/-- All nodes of the tree agree with the declarations. -/
def Declared (registry : Registry) (e : Expr) : Prop :=
  ∀ n ∈ e.nodes, n.Conforms registry

/-- Some node of the tree calls a function that is not registered. -/
def CallsUnknown (registry : Registry) (e : Expr) : Prop :=
  ∃ l as, .call l as ∈ e.nodes ∧ registry.get? (Text.upper l.text) = none

theorem declared_call {registry : Registry} (l : Label) (as : List Expr) :
    (call l as).Declared registry ↔
      (call l as).Conforms registry ∧ ∀ a ∈ as, a.Declared registry :=
  forall_nodes_call l as

theorem declared_array {registry : Registry} (l : Label) (rs : List (List Expr)) :
    (array l rs).Declared registry ↔
      (array l rs).Conforms registry ∧ ∀ r ∈ rs, ∀ c ∈ r, c.Declared registry :=
  forall_nodes_array l rs

theorem CallsUnknown.of_subset {registry : Registry} {e f : Expr} (h : e.CallsUnknown registry)
    (hsubset : e.nodes ⊆ f.nodes) : f.CallsUnknown registry := by
  obtain ⟨l, as, hmem, hunknown⟩ := h
  exact ⟨l, as, hsubset hmem, hunknown⟩

end Expr

/-! ### Verdicts -/

/-- There is a result exactly where it is allowed, and what is refused instead is a bad expression or,
if there is one, an unknown function. -/
inductive Verdict (allowed unknown : Prop) {α : Type} : Except Fault α → Prop
  | accepted (a : α) (fair : allowed) : Verdict allowed unknown (.ok a)
  | refused (fault : Fault) (fair : ¬ allowed)
    (code : fault.code = .badExpression ∨ fault.code = .unknownFunction ∧ unknown) :
    Verdict allowed unknown (.error fault)

namespace Verdict

variable {allowed allowed' unknown unknown' : Prop} {α β : Type} {x : Except Fault α}

theorem congr (h : Verdict allowed unknown x) (hallowed : allowed ↔ allowed')
    (hunknown : unknown → unknown') : Verdict allowed' unknown' x := by
  cases h with
  | accepted a fair => exact .accepted a (hallowed.mp fair)
  | refused fault fair code =>
    exact .refused fault (mt hallowed.mpr fair) (code.imp_right (And.imp_right hunknown))

/-- One step after the other: the second is judged only where the first has a result. -/
theorem bind {f : α → Except Fault β} (h : Verdict allowed unknown x)
    (hf : ∀ a, x = .ok a → Verdict allowed' unknown (f a)) :
    Verdict (allowed ∧ allowed') unknown (x >>= f) := by
  cases h with
  | accepted a fair => exact (hf a rfl).congr (by simp [fair]) id
  | refused fault fair code => exact .refused fault (fun h => fair h.1) code

theorem map (h : Verdict allowed unknown x) (f : α → β) :
    Verdict allowed unknown (x >>= fun a => pure (f a)) :=
  (h.bind fun a _ => .accepted (f a) trivial).congr (and_true allowed).to_iff id

/-- The verdict on a compiled formula as its fields tell it. -/
theorem isBad_and_fault? {f : Compiled} (h : Verdict allowed unknown f.outcome) :
    (f.isBad = false ↔ allowed) ∧
      ∀ fault, f.fault? = some fault →
        fault.code = .badExpression ∨ fault.code = .unknownFunction ∧ unknown := by
  unfold Compiled.isBad Compiled.fault?
  generalize f.outcome = outcome at h
  cases h with
  | accepted built fair =>
    refine ⟨iff_of_true rfl fair, ?_⟩
    rintro _ ⟨⟩
  | refused fault fair code =>
    refine ⟨iff_of_false (by rintro ⟨⟩) fair, ?_⟩
    rintro _ ⟨⟩
    exact code

end Verdict

namespace Generate

variable {registry : Registry} {s : Signature}

theorem literalName?_eq_none_iff (e : Expr) :
    literalName? e = none ↔ e.kind ∉ [.number, .string, .boolean] := by
  cases e with
  | leaf l atom => cases atom <;> simp [literalName?, Expr.kind]
  | _ => simp [literalName?, Expr.kind]

theorem verdict_checkArgument (name : String) (position : Nat) (a : Argument) (e : Expr) :
    Verdict (a.Admits e) False (checkArgument name position a e) := by
  unfold checkArgument
  split
  · rename_i hreference
    simp only [Argument.isReference, Bool.and_eq_true, List.contains_iff_mem, bne_iff_ne] at hreference
    exact .refused _ (fun h => hreference.2 (h.reference hreference.1)) (.inl rfl)
  · rename_i hreference
    split
    · rename_i given hrange hliteral
      simp only [Argument.rangeOnly, Bool.and_eq_true, Bool.not_eq_true', List.isEmpty_eq_false_iff,
        List.all_eq_true] at hrange
      refine .refused _ (fun h => ?_) (.inl rfl)
      have hnone := (literalName?_eq_none_iff e).mpr (h.range hrange.1 hrange.2)
      rw [hliteral] at hnone
      cases hnone
    · rename_i hrange
      refine .accepted () ⟨?_, ?_⟩
      · simpa [Argument.isReference] using hreference
      · intro hsome hall
        rw [← literalName?_eq_none_iff]
        by_contra hliteral
        obtain ⟨given, hgiven⟩ := Option.ne_none_iff_exists'.mp hliteral
        refine hrange given ?_ hgiven
        simpa [Argument.rangeOnly, hsome] using hall

/-- The declaration that a position falls on is asked, and nothing is where it falls on none. -/
theorem verdict_contextFor (name : String) (s : Signature) (count position : Nat) (e : Expr) :
    Verdict (s.Reaches count position → s.AdmitsAt (s.target count position).index e) False
      (contextFor name s (fun position => .ok (s.target count position)) position e) := by
  unfold contextFor
  dsimp only
  split
  · rename_i hknown
    split
    · rename_i a hdeclared hsign
      refine (verdict_checkArgument name position a e).map _ |>.congr ?_ id
      rw [Signature.AdmitsAt, Signature.declaration?, if_pos (of_decide_eq_true hsign), hdeclared]
      simp [Signature.Reaches, hknown]
    · rename_i hdeclared
      refine .refused _ (fun h => ?_) (.inl rfl)
      obtain ⟨a, hdeclared', -⟩ := h hknown
      obtain ⟨hindex, hdeclared'⟩ := Option.ite_none_right_eq_some.mp hdeclared'
      exact hdeclared a hdeclared' (decide_eq_true hindex)
  · rename_i hunknown
    exact .accepted _ fun hreaches => absurd hreaches hunknown

theorem verdict_resolve (registry : Registry) (l : Label) (count : Nat) :
    Verdict (∃ s, registry.get? (Text.upper l.text) = some s ∧ s.countFault? count = none ∧
        ¬ (s.repeatingStart?.isSome ∧ s.repeatingCount = 0))
      (registry.get? (Text.upper l.text) = none) (resolve registry .standard l count) := by
  unfold resolve
  dsimp only
  cases hs : registry.get? (Text.upper l.text) with
  | none => exact .refused _ (by simp) (.inr ⟨rfl, rfl⟩)
  | some s =>
    cases hcount : s.countFault? count with
    | none =>
      simp only [Signature.checkCount, hcount, Targeting.standard]
      by_cases hgroups : s.repeatingStart?.isSome ∧ s.repeatingCount = 0
      · rw [if_pos hgroups]
        exact .refused _ (by simpa [hcount] using hgroups) (.inl rfl)
      · rw [if_neg hgroups]
        exact .accepted _ (by simpa [hcount] using hgroups)
    | some reason =>
      simp only [Signature.checkCount, hcount]
      exact .refused _ (by simp [hcount]) (.inl rfl)

theorem target_of_resolve {l : Label} {count : Nat} {target : Nat → Except String Target}
    (h : resolve registry .standard l count = .ok (s, target)) :
    registry.get? (Text.upper l.text) = some s ∧
      target = fun position => .ok (s.target count position) := by
  obtain ⟨hs, htarget⟩ := resolve_eq_ok h
  unfold Targeting.standard at htarget
  split at htarget
  · cases htarget
  · cases htarget
    exact ⟨hs, rfl⟩

/-- The verdict on the code of a tree, in every context. -/
def Judged (registry : Registry) (e : Expr) : Prop :=
  ∀ context c, Verdict (e.Declared registry) (e.CallsUnknown registry)
    (expr registry .standard context c e)

theorem verdict_arguments {es : List Expr} (hes : ∀ e ∈ es, Judged registry e) (name : String)
    (count position : Nat) (c : Counters) :
    Verdict (s.AdmitsFrom count position es ∧ ∀ e ∈ es, e.Declared registry)
      (∃ e ∈ es, e.CallsUnknown registry)
      (arguments registry .standard name s (fun position => .ok (s.target count position)) position
        c es) := by
  induction es generalizing position c with
  | nil => exact .accepted _ ⟨fun _ _ => nofun, List.forall_mem_nil _⟩
  | cons e es ih =>
    obtain ⟨he, hes⟩ := List.forall_mem_cons.mp hes
    have hcontext : Verdict _ (∃ e' ∈ e :: es, e'.CallsUnknown registry) _ :=
      (verdict_contextFor name s count position e).congr Iff.rfl False.elim
    unfold arguments
    refine (hcontext.bind fun context _ => ((he context c).congr Iff.rfl ?_).bind fun p _ =>
      ((ih hes (position + 1) p.counters).congr Iff.rfl ?_).map _).congr ?_ id
    · exact List.exists_mem_cons_of es
    · exact List.exists_mem_cons_of_exists
    · rw [List.forall_mem_cons, Signature.admitsFrom_cons]
      tauto

theorem verdict_cells {es : List Expr} (hes : ∀ e ∈ es, Judged registry e) (c : Counters) :
    Verdict (∀ e ∈ es, e.Declared registry) (∃ e ∈ es, e.CallsUnknown registry)
      (cells registry .standard c es) := by
  induction es generalizing c with
  | nil => exact .accepted _ (by simp)
  | cons e es ih =>
    obtain ⟨he, hes⟩ := List.forall_mem_cons.mp hes
    unfold cells
    refine (((he {} c).congr Iff.rfl ?_).bind fun p _ =>
      ((ih hes p.counters).congr Iff.rfl ?_).map _).congr List.forall_mem_cons.symm id
    · exact List.exists_mem_cons_of es
    · exact List.exists_mem_cons_of_exists

theorem verdict_rows {rs : List (List Expr)} (hrs : ∀ r ∈ rs, ∀ e ∈ r, Judged registry e)
    (l : Label) (columns : Nat) (c : Counters) :
    Verdict (∀ r ∈ rs, r.length = columns ∧ ∀ e ∈ r, e.Declared registry)
      (∃ r ∈ rs, ∃ e ∈ r, e.CallsUnknown registry) (rows registry .standard l columns c rs) := by
  induction rs generalizing c with
  | nil => exact .accepted _ (by simp)
  | cons r rs ih =>
    obtain ⟨hr, hrs⟩ := List.forall_mem_cons.mp hrs
    unfold rows
    split
    · rename_i hlength
      exact .refused _ (fun h => hlength (h r List.mem_cons_self).1) (.inl rfl)
    · rename_i hlength
      refine (((verdict_cells hr c).congr Iff.rfl ?_).bind fun ps _ =>
        ((ih hrs ps.counters).congr Iff.rfl ?_).map _).congr ?_ id
      · exact fun hunknown => List.exists_mem_cons_of rs hunknown
      · exact List.exists_mem_cons_of_exists
      · rw [List.forall_mem_cons, Decidable.not_not.mp hlength]
        simp

end Generate

namespace Generate

variable {registry : Registry}

theorem isSome_binaryName? {op : String} (hbinds : 0 < Operator.priority op)
    (hbinary : Operator.isSuffix op = false) : ∃ name, binaryName? op = some name := by
  have hall : ∀ op ∈ Terminal.operators, Operator.isSuffix op = false →
      (binaryName? op).isSome = true := by decide
  exact Option.isSome_iff_exists.mp (hall op (Terminal.mem_operators hbinds) hbinary)

theorem judged_leaf {l : Label} {atom : Atom} (h : (Expr.leaf l atom).WellFormed .known) :
    Judged registry (.leaf l atom) := by
  intro context c
  have hdeclared : (Expr.leaf l atom).Declared registry :=
    (Expr.forall_nodes_leaf l atom).mpr trivial
  have hleaf : ∃ p, leaf l atom context c = .ok p := by
    rw [Expr.wellFormed_leaf] at h
    cases atom with
    | other kind => exact absurd rfl (h kind)
    | reference =>
      simp only [leaf]
      split <;> exact ⟨_, rfl⟩
    | _ => exact ⟨_, rfl⟩
  obtain ⟨p, hp⟩ := hleaf
  unfold expr
  rw [hp]
  exact .accepted _ hdeclared

theorem judged_call {l : Label} {as : List Expr} (h : ∀ a ∈ as, Judged registry a) :
    Judged registry (.call l as) := by
  intro context c
  have hresolve : Verdict _ ((Expr.call l as).CallsUnknown registry) _ :=
    (verdict_resolve registry l as.length).congr Iff.rfl fun hunknown =>
      ⟨l, as, by simp [Expr.nodes_call], hunknown⟩
  have harguments : ∀ s target, resolve registry .standard l as.length = .ok (s, target) →
      Verdict (∀ s, registry.get? (Text.upper l.text) = some s →
          s.AdmitsFrom as.length 0 as ∧ ∀ a ∈ as, a.Declared registry)
        ((Expr.call l as).CallsUnknown registry)
        (arguments registry .standard (Text.upper l.text) s target 0 c as) := by
    intro s target hresolved
    obtain ⟨hs, rfl⟩ := target_of_resolve hresolved
    refine (verdict_arguments h (Text.upper l.text) as.length 0 c).congr ?_ ?_
    · refine ⟨fun hall s' hs' => ?_, fun hall => hall s hs⟩
      rw [hs] at hs'
      cases hs'
      exact hall
    · rintro ⟨a, ha, hunknown⟩
      refine hunknown.of_subset fun n hn => ?_
      rw [Expr.nodes_call]
      exact List.mem_cons_of_mem _ (List.mem_flatMap.mpr ⟨a, ha, hn⟩)
  unfold expr
  refine (hresolve.bind fun found hfound => (harguments _ _ hfound).map _).congr ?_ id
  rw [Expr.declared_call]
  constructor
  · rintro ⟨⟨s, hs, hcount, hgroups⟩, hall⟩
    obtain ⟨heach, hdeclared⟩ := hall s hs
    exact ⟨⟨s, hs, hcount, hgroups, by simpa [Signature.AdmitsFrom] using heach⟩, hdeclared⟩
  · rintro ⟨⟨s, hs, hadmits⟩, hdeclared⟩
    refine ⟨⟨s, hs, hadmits.count, hadmits.groups⟩, fun s' hs' => ?_⟩
    rw [hs] at hs'
    cases hs'
    exact ⟨by simpa [Signature.AdmitsFrom] using hadmits.each, hdeclared⟩

/-- Code is generated for the declared trees of the grammar and for no others. -/
theorem judged_of_wellFormed {e : Expr} (h : e.WellFormed .known) : Judged registry e := by
  induction e with
  | leaf l atom => exact judged_leaf h
  | unary l suffix e ih =>
    intro context c
    have hdeclared : (Expr.unary l suffix e).Declared registry ↔ e.Declared registry :=
      (Expr.forall_nodes_unary l suffix e).trans (and_iff_right trivial)
    unfold expr
    refine ((ih ((Expr.wellFormed_unary l suffix e).mp h).2 {} c).map _).congr hdeclared.symm ?_
    exact fun hunknown => hunknown.of_subset (List.subset_cons_self _ _)
  | binary l a b iha ihb =>
    obtain ⟨⟨hbinds, hbinary, -⟩, ha, hb⟩ := (Expr.wellFormed_binary l a b).mp h
    obtain ⟨name, hname⟩ := isSome_binaryName? hbinds hbinary
    intro context c
    have hdeclared : (Expr.binary l a b).Declared registry ↔
        a.Declared registry ∧ b.Declared registry :=
      (Expr.forall_nodes_binary l a b).trans (and_iff_right trivial)
    unfold expr
    rw [hname]
    refine (((iha ha {} c).congr Iff.rfl ?_).bind fun p _ =>
      ((ihb hb {} p.counters).congr Iff.rfl ?_).map _).congr hdeclared.symm id
    · exact fun hunknown => hunknown.of_subset fun n hn => by simp [Expr.nodes_binary, hn]
    · exact fun hunknown => hunknown.of_subset fun n hn => by simp [Expr.nodes_binary, hn]
  | call l as ih =>
    obtain ⟨-, has⟩ := (Expr.wellFormed_call l as).mp h
    exact judged_call fun a ha => ih a ha (has a ha)
  | array l rs ih =>
    obtain ⟨⟨-, hsome, -⟩, hrs⟩ := (Expr.wellFormed_array l rs).mp h
    intro context c
    unfold expr
    refine ((verdict_rows (fun r hr e he => ih r hr e he (hrs r hr e he)) l _ c).map _).congr ?_ ?_
    · rw [Expr.declared_array]
      obtain ⟨first, rest, rfl⟩ := List.exists_cons_of_ne_nil hsome
      constructor
      · intro hall
        refine ⟨fun r hr r' hr' => ?_, fun r hr => (hall r hr).2⟩
        rw [(hall r hr).1, (hall r' hr').1]
      · rintro ⟨hlengths, hdeclared⟩ r hr
        exact ⟨hlengths r hr first List.mem_cons_self, hdeclared r hr⟩
    · rintro ⟨r, hr, e, he, hunknown⟩
      refine hunknown.of_subset fun n hn => ?_
      rw [Expr.nodes_array]
      exact List.mem_cons_of_mem _
        (List.mem_flatMap.mpr ⟨r, hr, List.mem_flatMap.mpr ⟨e, he, hn⟩⟩)

end Generate

/-! ### Formulas -/

/-- A formula that cannot be read is a bad expression. -/
theorem Parser.code_of_run {limit : Option Nat} {stop : Nat} {stage : Stage}
    {terminals : List Terminal} {fault : Fault} (h : run limit stop stage terminals = .error fault) :
    fault.code = .badExpression := by
  induction terminals generalizing stage with
  | nil =>
    simp only [run] at h
    split at h <;> cases h
    rfl
  | cons t terminals ih =>
    simp only [run] at h
    split at h
    · exact ih h
    · cases h
      rfl

theorem Expr.code_of_ofTokens {reading : Reading} {tokens : List Token} {fault : Fault}
    (h : ofTokens reading tokens = .error fault) : fault.code = .badExpression := by
  unfold ofTokens at h
  split at h
  · cases h
    rfl
  · exact Parser.code_of_run h

namespace Compiler

/-- What is made of a formula where nothing is at hand. -/
theorem verdict_fresh (registry : Registry) (formula : String) :
    Verdict (∃ root, Expr.parse {} formula = .ok root ∧ root.Declared registry)
      (∃ root, Expr.parse {} formula = .ok root ∧ root.CallsUnknown registry)
      (fresh { registry } formula) := by
  cases hroot : Expr.parse {} formula with
  | error fault =>
    have hnone (p : Expr → Prop) :
        ¬ ∃ root, (Except.error fault : Except Fault Expr) = .ok root ∧ p root := nofun
    unfold fresh
    split
    · exact .refused _ (hnone _) (.inl rfl)
    · have hbuild (key : String) : build { registry } key
          (Token.rangeTokenize .canonical formula) = .error fault := by
        rw [build_eq_bind]
        rw [show Expr.ofTokens {} (Token.rangeTokenize .canonical formula) = _ from hroot]
        rfl
      rw [hbuild]
      exact .refused _ (hnone _) (.inl (Expr.code_of_ofTokens hroot))
  | ok root =>
    have hread : (literals { registry } formula).unreadable = none :=
      Literals.unreadable_of_ofTokens hroot
    have hbuild : fresh { registry } formula =
        Routine.ofExpr registry .standard (key { registry } formula) root := by
      rw [fresh_of_readable hread, build_eq_bind]
      rw [show Expr.ofTokens {} (Token.rangeTokenize .canonical formula) = _ from hroot]
      rfl
    have hjudged : Generate.Judged registry root :=
      Generate.judged_of_wellFormed (Expr.wellFormed_known hroot)
    rw [hbuild]
    refine ((hjudged {} {}).map _).congr ?_ fun hunknown => ⟨root, rfl, hunknown⟩
    simp

/-- What compiles is what the declarations allow: a compiler with nothing at hand accepts a formula if
it is read as a declared tree and only then. What it refuses is a bad expression, or an unknown function
where the tree calls one that is not registered. Where the numbers of arguments follow from the
declarations, two reasons never occur: groups of repeating arguments can always be counted, and there is a
declaration wherever an argument is said to fall on one. -/
theorem accepts_iff_declared (registry : Registry) (capacity : Int) (formula : String) :
    let f := (compile { registry } (.ofCapacity capacity) formula).1
    (f.isBad = false ↔ ∃ root, Expr.parse {} formula = .ok root ∧ root.Declared registry) ∧
      (∀ fault, f.fault? = some fault →
        fault.code = .badExpression ∨
          fault.code = .unknownFunction ∧
            ∃ root, Expr.parse {} formula = .ok root ∧ root.CallsUnknown registry) ∧
      ∀ s : Signature, s.Derived →
        ¬ (s.repeatingStart?.isSome ∧ s.repeatingCount = 0) ∧
          ∀ count position : Nat, 2 * s.arguments.length ≤ Word.greatest → position < count →
            (s.target count position).known = true →
              (s.declaration? (s.target count position).index).isSome = true := by
  intro f
  have houtcome : f.outcome = (fun r => ⟨0, r⟩) <$> fresh { registry } formula :=
    outcome_ofCapacity capacity
  have hverdict : Verdict (∃ root, Expr.parse {} formula = .ok root ∧ root.Declared registry)
      (∃ root, Expr.parse {} formula = .ok root ∧ root.CallsUnknown registry) f.outcome := by
    rw [houtcome, ← bind_pure_comp]
    exact (verdict_fresh registry formula).map _
  obtain ⟨haccepted, hrefused⟩ := hverdict.isBad_and_fault?
  refine ⟨haccepted, hrefused, fun s hs => ⟨hs.groups, fun count position hfits hcount hknown => ?_⟩⟩
  exact Signature.isSome_declaration?_of_known hs hfits (by omega) (by omega) hknown

/-- Where one function more wants a bare reference: a formula that agrees with the declarations, a number
deep down in the place of a reference, and a function that is not registered. -/
theorem accepts_only_declared_references :
    let registry := Registry.standard.add
      (.describe "row" [{ name := "cell", types := [.reference] }])
    (∃ root, Expr.parse {} "=-ROW(B2)+SUMIFS(A1:A3,B1:B3,\"x\")" = .ok root ∧
        root.Declared registry) ∧
      (¬ ∃ root, Expr.parse {} "=SUM(1,\x7bROW(2)\x7d)" = .ok root ∧ root.Declared registry) ∧
      ∃ root, Expr.parse {} "=SUM(1,-NOPE())" = .ok root ∧ root.CallsUnknown registry := by
  intro registry
  refine ⟨?_, ?_, ?_⟩
  · have hgood : (compile { registry } (.ofCapacity 2)
        "=-ROW(B2)+SUMIFS(A1:A3,B1:B3,\"x\")").1.isBad = false := by
      decide +kernel
    exact (accepts_iff_declared registry 2 _).1.mp hgood
  · intro hdeclared
    have hgood := (accepts_iff_declared registry 2 _).1.mpr hdeclared
    have hbad : (compile { registry } (.ofCapacity 2) "=SUM(1,\x7bROW(2)\x7d)").1.isBad = true := by
      decide +kernel
    rw [hgood] at hbad
    cases hbad
  · have hfault : (compile { registry } (.ofCapacity 2) "=SUM(1,-NOPE())").1.fault? =
        some ⟨.unknownFunction, .unknownFunction "NOPE", 6, "NOPE", none⟩ := by
      decide +kernel
    rcases (accepts_iff_declared registry 2 _).2.1 _ hfault with hcode | ⟨-, hunknown⟩
    · cases hcode
    · exact hunknown

/-! ### Refusals -/

variable {c : Compiler} {s : Store} {formula : String} {fault : Fault}

theorem tokens_compile :
    (c.compile s formula).1.tokens = Token.rangeTokenize c.locale formula := by
  simp only [compile, compileTokens]
  split <;> rfl

/-- A lookup that finds nothing leaves the store alone, and only what has been built is put in. -/
theorem store_of_refused (h : (c.compile s formula).1.outcome = .error fault) :
    (c.compile s formula).2.1 = s := by
  rw [outcome_compile] at h
  rw [store_compile]
  unfold outcome at h ⊢
  cases hread : (c.literals formula).unreadable with
  | some text => rfl
  | none =>
    simp only [hread, routine, Cache.get?] at h ⊢
    cases hfind : s.cache.find? (c.literals formula).key with
    | some built => simp only [hfind, reduceCtorEq] at h
    | none =>
      simp only [hfind] at h ⊢
      cases hbuild : c.build (c.literals formula).key (Token.rangeTokenize c.locale formula) with
      | error fault => rfl
      | ok routine => simp only [hbuild, reduceCtorEq] at h

/-- A refused formula leaves no trace, whatever the compiler, its targeting and the store: all routines
stay at hand in the same order, the formula has none and its own text as normal form, and running it asks
the surroundings for nothing and fails with the fault of the refusal. -/
theorem refused_leaves_no_trace (c : Compiler) (s : Store) (formula : String)
    (h : (c.compile s formula).1.isBad = true) :
    let f := (c.compile s formula).1
    (c.compile s formula).2.1 = s ∧ f.built? = none ∧
      f.normalForm = Token.spell (Token.rangeTokenize c.locale formula) ∧
      ∃ fault, f.fault? = some fault ∧
        ∀ {m : Type → Type} [Monad m] {ε α : Type} (env : Surroundings m ε α)
          (debugging : Bool) (note : Trace → m Unit),
          f.run env debugging note = pure (.error (.fault fault)) := by
  intro f
  cases houtcome : f.outcome with
  | ok built =>
    rw [Compiled.isBad, houtcome] at h
    cases h
  | error fault =>
    refine ⟨store_of_refused houtcome, ?_, ?_, fault, ?_, fun env debugging note => ?_⟩
    · rw [Compiled.built?, houtcome]
      rfl
    · rw [Compiled.normalForm, houtcome]
      exact congrArg Token.spell tokens_compile
    · rw [Compiled.fault?, houtcome]
    · rw [Compiled.run, houtcome]

/-- With a full store, of a call that the targeting gives up on. -/
theorem refused_by_targeting_leaves_no_trace :
    let c : Compiler := { targeting := fun _ _ => .error "boom" }
    let s := (Compiler.compile {} (Compiler.compile {} (.ofCapacity 2) "=1+a").2.1 "=SUM(2)").2.1
    (c.compile s "=b*SUM(1,2)").1.isBad = true ∧ s.size = 2 ∧
      let f := (c.compile s "=b*SUM(1,2)").1
      (c.compile s "=b*SUM(1,2)").2.1 = s ∧ f.built? = none ∧
        f.normalForm = Token.spell (Token.rangeTokenize c.locale "=b*SUM(1,2)") ∧
        ∃ fault, f.fault? = some fault ∧
          ∀ {m : Type → Type} [Monad m] {ε α : Type} (env : Surroundings m ε α)
            (debugging : Bool) (note : Trace → m Unit),
            f.run env debugging note = pure (.error (.fault fault)) := by
  intro c s
  have hbad : (c.compile s "=b*SUM(1,2)").1.isBad = true := by decide +kernel
  refine ⟨hbad, ?_, ?_⟩
  · decide +kernel
  · exact refused_leaves_no_trace c s "=b*SUM(1,2)" hbad

end Compiler

end SheetFormula
