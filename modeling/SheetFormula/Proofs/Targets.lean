import SheetFormula.Proofs.Acceptance

/-!
Calls and declarations. Which numbers of arguments a signature admits, and on which declaration each
argument of a call falls, both follow from the place of the first repeating declaration, the number of
those that repeat and the number of those left for the end of a call. A call is cut there: what stands
before the first repeating declaration, whole groups of repeating ones, and what is left over.
-/

set_option autoImplicit false

namespace SheetFormula

namespace Signature

variable {s : Signature} {start size count i : Nat}

/-! ### Numbers of arguments -/

theorem checkCount_eq_ok_iff : s.checkCount count = .ok () ↔ s.countFault? count = none := by
  unfold checkCount
  cases s.countFault? count <;> simp

theorem groupSize_eq_zero_iff : groupSize s.arguments = 0 ↔ s.repeatingStart? = none := by
  rw [groupSize, List.countP_eq_zero, repeatingStart?, List.findIdx?_eq_none_iff]
  simp

/-- A single repeating argument makes groups of itself. -/
theorem groupFault?_of_le_one (h : s.repeatingCount ≤ 1) (start rest : Int) :
    s.groupFault? start rest = none :=
  if_neg fun hgroup => by omega

/-- Where nothing repeats, each declaration is met once at most. -/
theorem checkCount_of_none (hs : s.Derived) (h : s.repeatingStart? = none) :
    s.checkCount count = .ok () ↔ mustCount s.arguments ≤ count ∧ count ≤ s.arguments.length := by
  have hzero := groupSize_eq_zero_iff.mpr h
  have hmost : s.mostArguments? = some (s.arguments.length : Int) :=
    hs.mostArguments?.trans (if_pos hzero)
  have hsize := hs.repeatingCount
  rw [checkCount_eq_ok_iff, countFault?, hs.requiredCount, hmost, h, Option.filter_some]
  dsimp only
  rw [groupFault?_of_le_one (by omega)]
  by_cases hmany : (s.arguments.length : Int) < count
  · rw [if_pos (decide_eq_true hmany)]
    split_ifs <;> simp <;> omega
  · rw [if_neg (mt of_decide_eq_true hmany)]
    split_ifs <;> simp <;> omega

/-- From the first repeating declaration on there are whole groups, and after at least one of them no
more arguments than may be left out. -/
theorem checkCount_of_some (hs : s.Derived) (h : s.repeatingStart? = some start) :
    s.checkCount count = .ok () ↔ mustCount s.arguments ≤ count ∧
      (1 < groupSize s.arguments → start < count → (count - start) % groupSize s.arguments = 0 ∨
        1 ≤ (count - start) / groupSize s.arguments ∧
          (count - start) % groupSize s.arguments ≤ mayCount s.arguments) := by
  have hpos := groupSize_pos h
  have hmost : s.mostArguments? = none := hs.mostArguments?.trans (if_neg (by omega))
  rw [checkCount_eq_ok_iff, countFault?, hs.requiredCount, hmost, h, Option.filter_none]
  dsimp only
  rw [groupFault?, hs.repeatingCount, hs.optionalCount]
  by_cases hrest : start < count
  · have hcast : (count : Int) - start = (count - start : Nat) := by omega
    rw [hcast, ← Int.ofNat_tmod, ← Int.ofNat_tdiv]
    generalize (count - start) % groupSize s.arguments = remainder,
      (count - start) / groupSize s.arguments = groups
    split_ifs <;> simp <;> omega
  · split_ifs <;> simp <;> omega

/-! ### Places of arguments -/

theorem target_of_none (h : s.repeatingStart? = none) (hi : i < s.arguments.length) :
    s.target count i = ⟨i, true⟩ := by
  simp [target, h, hi]

theorem target_before (h : s.repeatingStart? = some start) (hi : i < start) :
    s.target count i = ⟨i, true⟩ := by
  simp [target, h, hi]

/-- The whole groups end where the last of them does; a group that is not whole ends with the call, if it
is the only one. -/
theorem tailStart_eq (hsize : s.repeatingCount = size) (hstart : start ≤ count) :
    s.tailStart start count =
      (if (count - start) / size = 0 then count
        else start + (count - start) / size * size : Nat) := by
  have hcast : (count : Int) - start = (count - start : Nat) := by omega
  rw [tailStart, hsize, hcast, ← Int.ofNat_tdiv]
  simp only [Int.natCast_eq_zero]
  split_ifs <;> simp

/-- Within the groups the repeating declarations are gone through in turn. -/
theorem target_within (hsize : s.repeatingCount = size) (h : s.repeatingStart? = some start)
    (hstart : start ≤ i) (hi : i < count)
    (hgroups : (count - start) / size = 0 ∨
      i < start + (count - start) / size * size) :
    s.target count i = ⟨(start + (i - start) % size : Nat), true⟩ := by
  have htail : (i : Int) < s.tailStart start count := by
    rw [tailStart_eq hsize (by omega)]
    split_ifs <;> omega
  have hcast : (i : Int) - start = (i - start : Nat) := by omega
  rw [target, h]
  dsimp only
  rw [if_neg (by omega), if_neg (by omega), if_pos htail, hsize, hcast, ← Int.ofNat_tmod,
    Int.natCast_add]

theorem start_lt_of_groups (h : (count - start) / size ≠ 0) : start < count := by
  by_contra hle
  exact h (by rw [Nat.sub_eq_zero_of_le (by omega), Nat.zero_div])

/-- What is left over after the groups falls on the declarations after the repeating ones. -/
theorem target_after (hsize : s.repeatingCount = size) (h : s.repeatingStart? = some start)
    (hgroups : (count - start) / size ≠ 0) :
    s.target count (start + (count - start) / size * size + i : Nat) =
      if start + size + i < s.arguments.length then
        ⟨(start + size + i : Nat), true⟩
      else ⟨Word.wrap (start + size + i : Nat),
        Word.wrap (start + size + i : Nat) < s.arguments.length⟩ := by
  have htail := tailStart_eq hsize (start_lt_of_groups hgroups).le
  rw [if_neg hgroups] at htail
  have hindex : (start : Int) + size +
      ((start + (count - start) / size * size + i : Nat) -
        (start + (count - start) / size * size : Nat)) =
      (start + size + i : Nat) := by
    push_cast
    omega
  rw [target, h]
  dsimp only
  rw [htail, if_neg (by omega), if_neg (by omega), if_neg (by omega), hsize, hindex]
  simp only [Nat.cast_lt]

/-! ### Declarations in the usual order -/

/-- Declarations that must be given, then declarations that repeat, then declarations that may be left
out. -/
structure InOrder (must repeated may : List Argument) : Prop where
  must : ∀ a ∈ must, a.repeating = false ∧ a.isOptional = false
  repeated : ∀ a ∈ repeated, a.repeating = true
  may : ∀ a ∈ may, a.repeating = false ∧ a.isOptional = true

namespace InOrder

variable {must repeated may : List Argument} (h : InOrder must repeated may) (name : String)

include h

theorem mustCount_eq : mustCount (must ++ repeated ++ may) = must.length := by
  have hmust : must.countP (fun a => !a.repeating && !a.isOptional) = must.length :=
    List.countP_eq_length.mpr fun a ha => by simp [h.must a ha]
  have hrepeated : repeated.countP (fun a => !a.repeating && !a.isOptional) = 0 :=
    List.countP_eq_zero.mpr fun a ha => by simp [h.repeated a ha]
  have hmay : may.countP (fun a => !a.repeating && !a.isOptional) = 0 :=
    List.countP_eq_zero.mpr fun a ha => by simp [h.may a ha]
  simp [mustCount, hmust, hrepeated, hmay]

theorem groupSize_eq : groupSize (must ++ repeated ++ may) = repeated.length := by
  have hmust : must.countP (·.repeating) = 0 :=
    List.countP_eq_zero.mpr fun a ha => by simp [h.must a ha]
  have hrepeated : repeated.countP (·.repeating) = repeated.length :=
    List.countP_eq_length.mpr h.repeated
  have hmay : may.countP (·.repeating) = 0 :=
    List.countP_eq_zero.mpr fun a ha => by simp [h.may a ha]
  simp [groupSize, hmust, hrepeated, hmay]

theorem mayCount_eq : mayCount (must ++ repeated ++ may) = may.length := by
  have hmust : must.countP (fun a => !a.repeating && a.isOptional) = 0 :=
    List.countP_eq_zero.mpr fun a ha => by simp [h.must a ha]
  have hrepeated : repeated.countP (fun a => !a.repeating && a.isOptional) = 0 :=
    List.countP_eq_zero.mpr fun a ha => by simp [h.repeated a ha]
  have hmay : may.countP (fun a => !a.repeating && a.isOptional) = may.length :=
    List.countP_eq_length.mpr fun a ha => by simp [h.may a ha]
  simp [mayCount, hmust, hrepeated, hmay]

theorem repeatingStart?_eq (hrepeated : repeated ≠ []) :
    (describe name (must ++ repeated ++ may)).repeatingStart? = some must.length := by
  obtain ⟨a, as, rfl⟩ := List.exists_cons_of_ne_nil hrepeated
  have hmust : must.findIdx? (·.repeating) = none :=
    List.findIdx?_eq_none_iff.mpr fun a ha => (h.must a ha).1
  have ha : a.repeating = true := h.repeated a List.mem_cons_self
  simp [repeatingStart?, describe, List.findIdx?_append, hmust, List.findIdx?_cons, ha]

end InOrder

/-- Where nothing repeats, a call has an argument for each declaration that must be given, and for some of
the others. Where a single one repeats, it takes all that follows. Where several repeat, they come in whole
groups, and what is left over once there is such a group may be no more than can be left out. -/
def Accepts (must size may count : Nat) : Prop :=
  match size with
  | 0 => must ≤ count ∧ count ≤ must + may
  | 1 => must ≤ count
  | size => count = must ∨ must < count ∧ ((count - must) % size = 0 ∨
      1 ≤ (count - must) / size ∧ (count - must) % size ≤ may)

instance (must size may count : Nat) : Decidable (Accepts must size may count) :=
  match size with
  | 0 => inferInstanceAs (Decidable (_ ∧ _))
  | 1 => inferInstanceAs (Decidable (_ ≤ _))
  | _ + 2 => inferInstanceAs (Decidable (_ ∨ _))

theorem accepts_of_one_lt {must size may count : Nat} (h : 1 < size) :
    Accepts must size may count ↔ count = must ∨ must < count ∧ ((count - must) % size = 0 ∨
      1 ≤ (count - must) / size ∧ (count - must) % size ≤ may) := by
  obtain ⟨more, rfl⟩ : ∃ more, size = more + 2 := ⟨size - 2, by omega⟩
  rfl

/-- The declarations that the arguments of a call fall on, in the order of the arguments: those that must
be given, the repeating ones as often as there are whole groups of them, and the first ones after them for
what is left over. -/
def places (must size count : Nat) : List Nat :=
  if size = 0 then List.range count
  else List.range must ++
    ((List.replicate ((count - must) / size) (List.range' must size)).flatten ++
      List.range' (must + size) ((count - must) % size))

/-- Positions in whole groups come to the places of the groups in turn. -/
theorem map_range'_mod (start size groups : Nat) :
    (List.range' start (groups * size)).map (fun i => start + (i - start) % size) =
      (List.replicate groups (List.range' start size)).flatten := by
  induction groups with
  | zero => simp
  | succ groups ih =>
    have hlast : (List.range' (start + groups * size) size).map (fun i => start + (i - start) % size) =
        List.range' start size := by
      rw [List.range'_eq_map_range, List.range'_eq_map_range, List.map_map]
      refine List.map_congr_left fun i hi => ?_
      have hi := List.mem_range.mp hi
      change start + (start + groups * size + i - start) % size = start + i
      rw [show start + groups * size + i - start = i + groups * size by omega,
        Nat.add_mul_mod_self_right, Nat.mod_eq_of_lt hi]
    rw [Nat.succ_mul, ← List.range'_append_1, List.map_append, ih, hlast, List.replicate_succ', List.flatten_append,
      List.flatten_singleton]

theorem range_eq_append (start groups rest : Nat) :
    List.range (start + (groups + rest)) =
      List.range start ++ (List.range' start groups ++ List.range' (start + groups) rest) := by
  rw [List.range_add, List.range'_append_1, List.range'_eq_map_range]

/-- The arguments of a call with repeating declarations have their places one after another, if there is
a declaration for each one left over after the groups. -/
theorem map_target (hsize : s.repeatingCount = size) (hpos : 0 < size)
    (h : s.repeatingStart? = some start) (hstart : start ≤ count)
    (hgroups : (count - start) / size = 0 → (count - start) % size = 0)
    (hrest : start + size + (count - start) % size ≤ s.arguments.length) :
    (List.range count).map (fun i : Nat => s.target count i) =
      (places start size count).map fun place : Nat => ⟨place, true⟩ := by
  have hcount : count = start + ((count - start) / size * size +
      (count - start) % size) := by
    rw [Nat.div_add_mod']
    omega
  have hbefore : (List.range start).map (fun i : Nat => s.target count i) =
      (List.range start).map fun place : Nat => ⟨place, true⟩ :=
    List.map_congr_left fun i hi => target_before h (List.mem_range.mp hi)
  have hwithin : (List.range' start ((count - start) / size * size)).map
        (fun i : Nat => s.target count i) =
      ((List.replicate ((count - start) / size)
        (List.range' start size)).flatten).map fun place : Nat => ⟨place, true⟩ := by
    rw [← map_range'_mod, List.map_map]
    refine List.map_congr_left fun i hi => ?_
    obtain ⟨hle, hlt⟩ := List.mem_range'_1.mp hi
    exact target_within hsize h hle (by omega) (.inr hlt)
  have hafter : (List.range' (start + (count - start) / size * size)
        ((count - start) % size)).map (fun i : Nat => s.target count i) =
      (List.range' (start + size) ((count - start) % size)).map
        fun place : Nat => ⟨place, true⟩ := by
    rw [List.range'_eq_map_range, List.range'_eq_map_range, List.map_map, List.map_map]
    refine List.map_congr_left fun i hi => ?_
    have hi := List.mem_range.mp hi
    have hsome : (count - start) / size ≠ 0 := fun hzero => by
      have := hgroups hzero
      omega
    refine (target_after hsize h hsome).trans ?_
    rw [if_pos (by omega)]
    rfl
  conv_lhs => rw [hcount]
  rw [range_eq_append, List.map_append, List.map_append, ← hcount, hbefore, hwithin, hafter, places,
    if_neg (by omega), List.map_append, List.map_append]

namespace InOrder

variable {must repeated may : List Argument} (h : InOrder must repeated may) (name : String)

include h

theorem checkCount_iff_accepts :
    (describe name (must ++ repeated ++ may)).checkCount count = .ok () ↔
      Accepts must.length repeated.length may.length count := by
  have hderived := derived_describe name (must ++ repeated ++ may)
  by_cases hrepeated : repeated = []
  · subst hrepeated
    rw [checkCount_of_none hderived (groupSize_eq_zero_iff.mp h.groupSize_eq), arguments_describe,
      h.mustCount_eq]
    simp [Accepts]
  · rw [checkCount_of_some hderived (h.repeatingStart?_eq name hrepeated), arguments_describe,
      h.mustCount_eq, h.groupSize_eq, h.mayCount_eq]
    have hpos : 0 < repeated.length := List.length_pos_iff.mpr hrepeated
    by_cases hsize : 1 < repeated.length
    · rw [accepts_of_one_lt hsize]
      simp only [hsize, forall_const]
      omega
    · rw [show repeated.length = 1 by omega]
      simp [Accepts]

theorem map_target_eq_places
    (haccepted : (describe name (must ++ repeated ++ may)).checkCount count = .ok ()) :
    (List.range count).map (fun i : Nat => (describe name (must ++ repeated ++ may)).target count i) =
      (places must.length repeated.length count).map fun place : Nat => ⟨place, true⟩ := by
  have hderived := derived_describe name (must ++ repeated ++ may)
  by_cases hrepeated : repeated = []
  · subst hrepeated
    have hnone : (describe name (must ++ [] ++ may)).repeatingStart? = none :=
      groupSize_eq_zero_iff.mp h.groupSize_eq
    have hle := ((checkCount_of_none hderived hnone).mp haccepted).2
    rw [places, List.length_nil, if_pos rfl]
    refine List.map_congr_left fun i hi => target_of_none hnone ?_
    exact (List.mem_range.mp hi).trans_le hle
  · have hstart := h.repeatingStart?_eq name hrepeated
    have hpos : 0 < repeated.length := List.length_pos_iff.mpr hrepeated
    have hsize : (describe name (must ++ repeated ++ may)).repeatingCount = repeated.length :=
      congrArg _ h.groupSize_eq
    have hcount := (checkCount_of_some hderived hstart).mp haccepted
    rw [arguments_describe, h.mustCount_eq, h.groupSize_eq, h.mayCount_eq] at hcount
    -- what is left over, if it is anything, follows a whole group and may be left out
    have hrest : (count - must.length) % repeated.length = 0 ∨
        1 ≤ (count - must.length) / repeated.length ∧
          (count - must.length) % repeated.length ≤ may.length := by
      by_cases hmany : 1 < repeated.length ∧ must.length < count
      · exact hcount.2 hmany.1 hmany.2
      · rcases (show repeated.length = 1 ∨ count - must.length = 0 by omega) with hone | hzero
        · exact .inl (hone ▸ Nat.mod_one _)
        · exact .inl (by rw [hzero, Nat.zero_mod])
    have hlength : (describe name (must ++ repeated ++ may)).arguments.length =
        must.length + repeated.length + may.length := by
      simp [Nat.add_assoc]
    exact map_target hsize hpos hstart hcount.1 (by omega) (by omega)

end InOrder

theorem target_of_neg {position : Int} (h : position < 0) (count : Int) :
    (s.target count position).known = false := by
  unfold target
  cases s.repeatingStart? with
  | none => simp [Int.not_le.mpr h]
  | some start => simp [h]

/-- Of declarations in the usual order. A call is accepted as its number of arguments says, and in an
accepted call the arguments fall on the declarations that must be given, then on the repeating ones as
often as there are whole groups of them, then on as many of those that may be left out as there are
arguments left over. A negative position falls on none. -/
theorem checkCount_and_targets {must repeated may : List Argument} (h : InOrder must repeated may)
    (name : String) :
    let s := describe name (must ++ repeated ++ may)
    (∀ count : Nat, s.checkCount count = .ok () ↔
      Accepts must.length repeated.length may.length count) ∧
    (∀ count : Nat, s.checkCount count = .ok () →
      (List.range count).map (fun i : Nat => s.target count i) =
        (places must.length repeated.length count).map fun place : Nat => ⟨place, true⟩) ∧
    ∀ count position : Int, position < 0 → (s.target count position).known = false :=
  ⟨fun _ => h.checkCount_iff_accepts name, fun _ => h.map_target_eq_places name,
    fun count _ hposition => target_of_neg hposition count⟩

/-- Of a declaration, two that repeat and one that may be left out, in a call with six arguments. -/
theorem checkCount_and_targets_of_pairs :
    let value : Argument := { name := "a", types := [.scalar .any] }
    let pair : Argument := { value with repeating := true }
    let last : Argument := { value with fallback := some "0" }
    let s := describe "CHOICE" ([value] ++ [pair, pair] ++ [last])
    InOrder [value] [pair, pair] [last] ∧ s.checkCount 6 = .ok () ∧ s.checkCount 2 ≠ .ok () ∧
      (List.range 6).map (fun i : Nat => s.target 6 i) =
        [⟨0, true⟩, ⟨1, true⟩, ⟨2, true⟩, ⟨1, true⟩, ⟨2, true⟩, ⟨3, true⟩] := by
  intro value pair last s
  have h : InOrder [value] [pair, pair] [last] :=
    ⟨by decide, by decide, by decide⟩
  obtain ⟨hcount, hplaces, -⟩ := checkCount_and_targets h "CHOICE"
  have hsix : s.checkCount 6 = .ok () := (hcount 6).mpr (by decide)
  exact ⟨h, hsix, mt (hcount 2).mp (by decide), (hplaces 6 hsix).trans (by decide)⟩

/-! ### Declarations in any order -/

/-- How many declarations after the first repeating one do not repeat. -/
def trailingCount (s : Signature) : Nat :=
  (s.arguments.dropWhile fun a => !a.repeating).countP fun a => !a.repeating

/-- How many arguments of a call are left over after the whole groups, if there is such a group. -/
def leftOver (s : Signature) (count : Nat) : Nat :=
  match s.repeatingStart? with
  | none => 0
  | some start =>
    if (count - start) / s.repeatingCount.toNat = 0 then 0
    else (count - start) % s.repeatingCount.toNat

/-- Each argument of a call falls on a declaration. -/
def Covers (s : Signature) (count : Nat) : Prop :=
  ∀ i < count, (s.target count i).known = true ∧
    (s.declaration? (s.target count i).index).isSome = true

instance (s : Signature) (count : Nat) : Decidable (s.Covers count) :=
  inferInstanceAs (Decidable (∀ i < count, _))

theorem length_eq_add_trailingCount (h : s.repeatingStart? = some start) :
    s.arguments.length = start + groupSize s.arguments + s.trailingCount := by
  obtain ⟨hlt, hstart⟩ := List.findIdx?_eq_some_iff_findIdx_eq.mp h
  have hdrop : s.arguments.dropWhile (fun a => !a.repeating) = s.arguments.drop start := by
    rw [List.dropWhile_eq_drop_findIdx_not]
    simp [hstart]
  have hsplit := List.length_eq_countP_add_countP (·.repeating) (l := s.arguments.drop start)
  rw [List.length_drop, ← groupSize_eq_countP_drop h] at hsplit
  rw [trailingCount, hdrop]
  simp only [Bool.not_eq_true, Bool.decide_eq_false] at hsplit
  omega

/-- Where none before the repeating declarations may be left out, those that may stand after them. -/
theorem mayCount_le_trailingCount
    (h : ∀ a ∈ s.arguments.takeWhile (fun a => !a.repeating), a.isOptional = false) :
    mayCount s.arguments ≤ s.trailingCount := by
  have hbefore : (s.arguments.takeWhile fun a => !a.repeating).countP
      (fun a => !a.repeating && a.isOptional) = 0 :=
    List.countP_eq_zero.mpr fun a ha => by simp [h a ha]
  rw [mayCount, ← List.takeWhile_append_dropWhile (p := fun a => !a.repeating) (l := s.arguments),
    List.countP_append, hbefore, Nat.zero_add]
  exact List.countP_mono_left fun a _ ha => (Bool.and_eq_true_iff.mp ha).1

theorem leftOver_eq (hsize : s.repeatingCount = size) (h : s.repeatingStart? = some start) :
    s.leftOver count = if (count - start) / size = 0 then 0 else (count - start) % size := by
  rw [leftOver, h, hsize, Int.toNat_natCast]

/-- A call is covered if there is a declaration for each argument left over. -/
theorem covers_of_leftOver_le (hs : s.Derived) (haccepted : s.checkCount count = .ok ())
    (hrest : s.leftOver count ≤ s.trailingCount) : s.Covers count := by
  have hplace {i place : Nat} (htarget : s.target count i = ⟨place, true⟩)
      (hplace : place < s.arguments.length) : (s.target count i).known = true ∧
        (s.declaration? (s.target count i).index).isSome = true := by
    rw [htarget]
    simpa [declaration?] using hplace
  intro i hi
  cases hstart : s.repeatingStart? with
  | none =>
    have hle := ((checkCount_of_none hs hstart).mp haccepted).2
    exact hplace (target_of_none hstart (by omega)) (by omega)
  | some start =>
    have hlength := length_eq_add_trailingCount hstart
    have hpos := groupSize_pos hstart
    have hsize := hs.repeatingCount
    generalize groupSize s.arguments = size at hlength hpos hsize
    rw [leftOver_eq hsize hstart] at hrest
    by_cases hbefore : i < start
    · exact hplace (target_before hstart hbefore) (by omega)
    by_cases hgroups : (count - start) / size = 0 ∨ i < start + (count - start) / size * size
    · have hmod := Nat.mod_lt (i - start) hpos
      exact hplace (target_within hsize hstart (by omega) hi hgroups) (by omega)
    · obtain ⟨hsome, hafter⟩ := not_or.mp hgroups
      obtain ⟨k, rfl⟩ := Nat.exists_eq_add_of_le (Nat.le_of_not_lt hafter)
      have hcount := Nat.div_add_mod' (count - start) size
      rw [if_neg hsome] at hrest
      have hlt : start + size + k < s.arguments.length := by omega
      exact hplace ((target_after hsize hstart hsome).trans (if_pos hlt)) hlt

/-- Where an argument is left over for which there is no declaration, the call is not covered. -/
theorem leftOver_le_of_covers (hs : s.Derived)
    (hword : (s.arguments.length : Int) ≤ Word.greatest) (h : s.Covers count) :
    s.leftOver count ≤ s.trailingCount := by
  cases hstart : s.repeatingStart? with
  | none => simp [leftOver, hstart]
  | some start =>
    have hlength := length_eq_add_trailingCount hstart
    have hsize := hs.repeatingCount
    generalize groupSize s.arguments = size at hlength hsize
    rw [leftOver_eq hsize hstart]
    split_ifs with hsome
    · exact Nat.zero_le _
    · by_contra hrest
      have hcount := Nat.div_add_mod' (count - start) size
      have hlt := start_lt_of_groups hsome
      have hlast : start + (count - start) / size * size + s.trailingCount < count := by omega
      have htarget := target_after (i := s.trailingCount) hsize hstart hsome
      have hwrap : Word.wrap s.arguments.length = s.arguments.length :=
        Word.wrap_eq_self (le_trans (by decide) (Int.natCast_nonneg _)) hword
      rw [← hlength, hwrap, if_neg (Nat.lt_irrefl _)] at htarget
      have hknown := (h _ hlast).1
      rw [htarget] at hknown
      simp at hknown

/-- What is left over in an accepted call is less than a group, and no more than may be left out. -/
theorem leftOver_le_of_checkCount (hs : s.Derived) (haccepted : s.checkCount count = .ok ()) :
    s.leftOver count ≤ min (mayCount s.arguments) (groupSize s.arguments - 1) := by
  cases hstart : s.repeatingStart? with
  | none => simp [leftOver, hstart]
  | some start =>
    have hcount := ((checkCount_of_some hs hstart).mp haccepted).2
    have hmod := Nat.mod_lt (count - start) (groupSize_pos hstart)
    rw [leftOver_eq hs.repeatingCount hstart]
    split_ifs with hsome
    · exact Nat.zero_le _
    · have hlt := start_lt_of_groups hsome
      omega

/-- Any number of arguments below a group that may be left out is left over in some accepted call. -/
theorem exists_checkCount_leftOver (hs : s.Derived) {rest : Nat}
    (hrest : rest ≤ mayCount s.arguments) (hless : rest < groupSize s.arguments) :
    ∃ count : Nat, s.checkCount count = .ok () ∧ s.leftOver count = rest := by
  cases hstart : s.repeatingStart? with
  | none =>
    have := groupSize_eq_zero_iff.mpr hstart
    omega
  | some start =>
    have hpos := groupSize_pos hstart
    -- as many groups as there are declarations that must be given, and one more
    have hdiv : (rest + (mustCount s.arguments + 1) * groupSize s.arguments) /
        groupSize s.arguments = mustCount s.arguments + 1 := by
      rw [Nat.add_mul_div_right _ _ hpos, Nat.div_eq_of_lt hless, Nat.zero_add]
    have hmod : (rest + (mustCount s.arguments + 1) * groupSize s.arguments) %
        groupSize s.arguments = rest := by
      rw [Nat.add_mul_mod_self_right, Nat.mod_eq_of_lt hless]
    have hrequired : mustCount s.arguments + 1 ≤
        (mustCount s.arguments + 1) * groupSize s.arguments :=
      Nat.le_mul_of_pos_right _ hpos
    refine ⟨start + (rest + (mustCount s.arguments + 1) * groupSize s.arguments), ?_, ?_⟩
    · rw [checkCount_of_some hs hstart, Nat.add_sub_cancel_left, hdiv, hmod]
      omega
    · rw [leftOver_eq hs.repeatingCount hstart, Nat.add_sub_cancel_left, hdiv, hmod,
        if_neg (by omega)]

/-- An accepted call is covered exactly where what is left over after its groups finds a declaration after
the repeating ones. All accepted calls are covered exactly where there are as many of these as can be left
over: the declarations that may be left out, but fewer than a group. Those that stand before the
repeating ones are counted among them, though nothing left over falls on them; where there are none of
these, all accepted calls are covered. -/
theorem covers_iff_leftOver_le (name : String) (arguments : List Argument)
    (hword : (arguments.length : Int) ≤ Word.greatest) :
    let s := describe name arguments
    (∀ count : Nat, s.checkCount count = .ok () →
      (s.Covers count ↔ s.leftOver count ≤ s.trailingCount)) ∧
    ((∀ count : Nat, s.checkCount count = .ok () → s.Covers count) ↔
      min s.optionalCount (s.repeatingCount - 1) ≤ s.trailingCount) ∧
    ((∀ a ∈ arguments.takeWhile (fun a => !a.repeating), a.isOptional = false) →
      ∀ count : Nat, s.checkCount count = .ok () → s.Covers count) := by
  intro s
  have hs : s.Derived := derived_describe name arguments
  have hcall (count : Nat) (haccepted : s.checkCount count = .ok ()) :
      s.Covers count ↔ s.leftOver count ≤ s.trailingCount :=
    ⟨leftOver_le_of_covers hs hword, covers_of_leftOver_le hs haccepted⟩
  have hcovers (hle : min (mayCount arguments) (groupSize arguments - 1) ≤ s.trailingCount)
      (count : Nat) (haccepted : s.checkCount count = .ok ()) : s.Covers count :=
    (hcall count haccepted).mpr ((leftOver_le_of_checkCount hs haccepted).trans hle)
  have hcast : min s.optionalCount (s.repeatingCount - 1) ≤ s.trailingCount ↔
      min (mayCount arguments) (groupSize arguments - 1) ≤ s.trailingCount := by
    have hmay : s.optionalCount = mayCount arguments := hs.optionalCount
    have hsize : s.repeatingCount = groupSize arguments := hs.repeatingCount
    omega
  rw [hcast]
  refine ⟨hcall, ⟨fun hall => ?_, hcovers⟩, fun hbefore => ?_⟩
  · by_cases hnone : groupSize arguments = 0
    · simp [hnone]
    · have hless : min (mayCount arguments) (groupSize arguments - 1) < groupSize arguments := by
        omega
      obtain ⟨count, haccepted, hrest⟩ :=
        exists_checkCount_leftOver hs (Nat.min_le_left (mayCount arguments) _) hless
      exact hrest ▸ (hcall count haccepted).mp (hall count haccepted)
  · exact hcovers ((Nat.min_le_left _ _).trans (mayCount_le_trailingCount (s := s) hbefore))

/-- Of two repeating declarations between two that may be left out, in a call with one argument left
over. -/
theorem covers_of_enclosed_pair :
    let may : Argument := { name := "a", types := [.scalar .any], optional := true }
    let pair : Argument := { name := "b", types := [.scalar .any], repeating := true }
    let s := describe "PICK" [may, pair, pair, may]
    s.checkCount 6 = .ok () ∧ s.leftOver 6 = 1 ∧ s.Covers 6 := by
  intro may pair s
  have haccepted : s.checkCount 6 = .ok () := by decide
  have hrest : s.leftOver 6 = 1 := by decide
  exact ⟨haccepted, hrest,
    ((covers_iff_leftOver_le "PICK" [may, pair, pair, may] (by decide)).1 6 haccepted).mpr (by decide)⟩

/-- A declaration that may be left out before two repeating ones lets an argument pass that falls on no
declaration. -/
theorem accepted_not_covers :
    let may : Argument := { name := "a", types := [.scalar .any], optional := true }
    let pair : Argument := { name := "b", types := [.scalar .any], repeating := true }
    let s := describe "F" [may, pair, pair]
    s.checkCount 4 = .ok () ∧ s.target 4 3 = ⟨3, false⟩ ∧ ¬ s.Covers 4 := by
  decide

end Signature

end SheetFormula
