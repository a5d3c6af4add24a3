import Mathlib.Data.List.Nodup
import SheetFormula.Cache.Linked
import SheetFormula.Proofs.Recency

/-!
The list and the map of a cache stay in step. Whatever is asked of the cache, the map has an element of the
list for each key and for no other, and the cache answers as one list of entries does. So what is known of
that list, such as which keys it holds after a history of requests, is known of the cache in two parts.
-/

set_option autoImplicit false

namespace SheetFormula.LinkedCache

variable {ε α : Type} {c : LinkedCache α} {key : String} {value : α} {l : Link α}
  {links front back : List (Link α)}

/-- What the list says by itself: the entries in their order. -/
def view (c : LinkedCache α) : Cache α :=
  ⟨c.capacity, c.links.map fun l => (l.key, l.value)⟩

/-- The map has the elements of the list and no others, each under its own key, and the next element to be
made is not one of them. -/
structure InStep (c : LinkedCache α) : Prop where
  items : c.items.Perm (c.links.map fun l => (l.key, l))
  keys : (c.links.map (·.key)).Nodup
  places : (c.links.map (·.place)).Nodup
  made : ∀ l ∈ c.links, l.place < c.made

/-! ### Elements and keys -/

theorem keys_view (c : LinkedCache α) : c.view.keys = c.links.map (·.key) := by
  rw [Cache.keys, view, List.map_map]
  rfl

/-- In a list without repeated keys, looking a key up finds exactly the values that stand under it. -/
theorem lookup_eq_some_iff {β : Type} {entries : List (String × β)} {found : β}
    (h : (entries.map Prod.fst).Nodup) : entries.lookup key = some found ↔ (key, found) ∈ entries := by
  induction entries with
  | nil => simp
  | cons entry entries ih =>
    obtain ⟨first, here⟩ := entry
    obtain ⟨hfirst, hrest⟩ := List.nodup_cons.mp h
    rw [Cache.lookup_cons, List.mem_cons]
    by_cases hkey : key = first
    · subst hkey
      have habsent : (key, found) ∉ entries := fun hmem => hfirst (List.mem_map.mpr ⟨_, hmem, rfl⟩)
      simp [habsent, eq_comm]
    · simp [hkey, ih hrest]

theorem link?_eq_some_iff (h : c.InStep) : c.link? key = some l ↔ l ∈ c.links ∧ l.key = key := by
  have hkeys : (c.items.map Prod.fst).Nodup := by
    rw [(h.items.map Prod.fst).nodup_iff, List.map_map]
    exact h.keys
  rw [link?, lookup_eq_some_iff hkeys, h.items.mem_iff, List.mem_map]
  constructor
  · rintro ⟨found, hfound, heq⟩
    obtain ⟨hkey, rfl⟩ := Prod.mk.inj heq
    exact ⟨hfound, hkey⟩
  · rintro ⟨hl, rfl⟩
    exact ⟨l, hl, rfl⟩

theorem find?_view (h : c.InStep) (key : String) :
    c.view.find? key = (c.link? key).map (·.value) := by
  cases hlink : c.link? key with
  | some l =>
    obtain ⟨hl, rfl⟩ := (link?_eq_some_iff h).mp hlink
    have hkeys : c.view.keys.Nodup := keys_view c ▸ h.keys
    exact (lookup_eq_some_iff hkeys).mpr (List.mem_map.mpr ⟨l, hl, rfl⟩)
  | none =>
    refine Cache.find?_eq_none_iff.mpr fun hmem => ?_
    rw [keys_view] at hmem
    obtain ⟨l, hl, hkey⟩ := List.mem_map.mp hmem
    rw [(link?_eq_some_iff h).mpr ⟨hl, hkey⟩] at hlink
    exact nomatch hlink

theorem size_view (h : c.InStep) : c.view.size = c.size := by
  rw [size, h.items.length_eq, Cache.size, view, List.length_map, List.length_map]

/-! ### Removing an element -/

/-- Where it stands, an element is cut out and nothing else is. -/
theorem remove_eq_append (h : (links.map (·.place)).Nodup) (hsplit : links = front ++ l :: back) :
    l.remove links = front ++ back := by
  subst hsplit
  rw [List.map_append, List.map_cons, List.nodup_middle, List.nodup_cons, ← List.map_append] at h
  have hothers : ∀ other ∈ front ++ back, (other.place != l.place) = true := by
    intro other hother
    refine bne_iff_ne.mpr fun heq => h.1 ?_
    exact heq ▸ List.mem_map_of_mem hother
  rw [Link.remove, List.filter_append, List.filter_cons_of_neg (by simp), ← List.filter_append,
    List.filter_eq_self.mpr hothers]

theorem cons_remove_perm (h : (links.map (·.place)).Nodup) (hl : l ∈ links) :
    (l :: l.remove links).Perm links := by
  obtain ⟨front, back, hsplit⟩ := List.append_of_mem hl
  rw [remove_eq_append h hsplit, hsplit]
  exact List.perm_middle.symm

/-- An element can be removed by its key as well, which is how the map does it. -/
theorem remove_eq_filter (h : c.InStep) (hl : l ∈ c.links) :
    l.remove c.links = c.links.filter (·.key != l.key) := by
  refine List.filter_congr fun other hother => Bool.eq_iff_iff.mpr ?_
  rw [bne_iff_ne, bne_iff_ne]
  refine not_congr ⟨fun hplace => ?_, fun hkey => ?_⟩
  · rw [List.inj_on_of_nodup_map h.places hother hl hplace]
  · rw [List.inj_on_of_nodup_map h.keys hother hl hkey]

theorem view_remove (h : c.InStep) (hl : l ∈ c.links) :
    (l.remove c.links).map (fun l => (l.key, l.value)) = c.view.without l.key := by
  rw [remove_eq_filter h hl, Cache.without, view, List.filter_map]
  rfl

theorem InStep.remove (h : c.InStep) (hl : l ∈ c.links) :
    InStep { c with links := l.remove c.links, items := c.itemsWithout l.key } := by
  have hsub : (l.remove c.links).Sublist c.links := List.filter_sublist
  refine ⟨?_, h.keys.sublist (hsub.map _), h.places.sublist (hsub.map _),
    fun other hother => h.made other (hsub.subset hother)⟩
  have hitems := h.items.filter (·.1 != l.key)
  rw [List.filter_map] at hitems
  rw [remove_eq_filter h hl]
  exact hitems

/-! ### Moving an element to the front -/

theorem moveToFront_eq (hl : l ∈ links) : l.moveToFront links = l :: l.remove links :=
  if_pos (List.any_eq_true.mpr ⟨l, hl, beq_self_eq_true l.place⟩)

/-- The element that stands in front stays there. -/
theorem promote_of_front (h : c.InStep) (hl : l ∈ c.links)
    (hfront : c.links.head?.map (·.place) = some l.place) : c.promote l = c := by
  obtain ⟨first, hfirst, hplace⟩ := Option.map_eq_some_iff.mp hfront
  obtain rfl := List.inj_on_of_nodup_map h.places (List.mem_of_mem_head? hfirst) hl hplace
  obtain ⟨rest, hrest⟩ := List.head?_eq_some_iff.mp hfirst
  have hremove : first.remove c.links = [] ++ rest := remove_eq_append h.places hrest
  rw [promote, moveToFront_eq hl, hremove, List.nil_append, ← hrest]

theorem view_promote (h : c.InStep) (hl : l ∈ c.links) (hcapacity : c.capacity ≠ 0) :
    (c.promote l).view = c.view.promote l.key l.value := by
  have hbound : c.view.capacity ≠ 0 := hcapacity
  rw [Cache.promote, if_neg hbound, ← view_remove h hl]
  simp only [view, promote, moveToFront_eq hl, List.map_cons]

theorem InStep.promote (h : c.InStep) (hl : l ∈ c.links) : (c.promote l).InStep := by
  have hperm : (l.moveToFront c.links).Perm c.links :=
    moveToFront_eq hl ▸ cons_remove_perm h.places hl
  exact ⟨h.items.trans (hperm.map _).symm, (hperm.map _).nodup_iff.mpr h.keys,
    (hperm.map _).nodup_iff.mpr h.places, fun other hother => h.made other (hperm.subset hother)⟩

/-! ### Putting a new entry in -/

theorem InStep.evict (h : c.InStep) : c.evict.InStep := by
  unfold LinkedCache.evict
  split
  · exact h
  · rename_i l hlast
    exact h.remove (List.mem_of_getLast? hlast)

/-- The last element is removed as itself, so the list loses its end. -/
theorem links_evict (h : c.InStep) : c.evict.links = c.links.dropLast := by
  unfold LinkedCache.evict
  split
  · rename_i hlast
    rw [List.getLast?_eq_none_iff.mp hlast]
    rfl
  · rename_i l hlast
    obtain ⟨front, hsplit⟩ := List.getLast?_eq_some_iff.mp hlast
    refine (remove_eq_append h.places hsplit).trans ?_
    rw [hsplit, List.dropLast_concat, List.append_nil]

theorem view_evict (h : c.InStep) : c.evict.view = ⟨c.capacity, c.view.entries.dropLast⟩ := by
  have hcapacity : c.evict.capacity = c.capacity := by
    unfold LinkedCache.evict
    split <;> rfl
  rw [view, links_evict h, hcapacity, List.map_dropLast]
  rfl

theorem InStep.push (h : c.InStep) (habsent : key ∉ c.links.map (·.key)) (value : α) :
    (c.push key value).InStep := by
  have hitems : c.itemsWithout key = c.items := by
    refine List.filter_eq_self.mpr fun item hitem => bne_iff_ne.mpr fun hkey => habsent ?_
    obtain ⟨l, hl, rfl⟩ := List.mem_map.mp (h.items.subset hitem)
    exact hkey ▸ List.mem_map_of_mem hl
  have hplace : c.made ∉ c.links.map (·.place) := by
    intro hmem
    obtain ⟨l, hl, heq⟩ := List.mem_map.mp hmem
    exact Nat.ne_of_lt (h.made l hl) heq
  refine ⟨?_, List.nodup_cons.mpr ⟨habsent, h.keys⟩, List.nodup_cons.mpr ⟨hplace, h.places⟩, ?_⟩
  · rw [LinkedCache.push, hitems]
    exact h.items.cons _
  · intro l hl
    rcases List.mem_cons.mp hl with rfl | hl
    · exact Nat.lt_succ_self _
    · exact Nat.lt_succ_of_lt (h.made l hl)

theorem InStep.insert (h : c.InStep) (habsent : c.link? key = none) (value : α) :
    (c.insert key value).InStep := by
  have hkey : key ∉ c.links.map (·.key) := by
    rw [← keys_view, ← Cache.find?_eq_none_iff, find?_view h, habsent]
    rfl
  unfold LinkedCache.insert
  split
  · refine h.evict.push (fun hmem => hkey ?_) value
    rw [links_evict h] at hmem
    exact ((List.dropLast_sublist _).map _).subset hmem
  · exact h.push hkey value

theorem view_insert (h : c.InStep) (key : String) (value : α) :
    (c.insert key value).view = c.view.insert key value := by
  have hfull : 0 < c.view.capacity ∧ c.view.capacity ≤ c.view.size ↔
      0 < c.capacity ∧ c.capacity ≤ c.links.length := by
    rw [Cache.size, view, List.length_map]
  have hpush (d : LinkedCache α) :
      (d.push key value).view = ⟨d.capacity, (key, value) :: d.view.entries⟩ := rfl
  rw [insert, hpush, Cache.insert]
  by_cases hcase : 0 < c.capacity ∧ c.capacity ≤ c.links.length
  · rw [if_pos hcase, if_pos (hfull.mpr hcase), view_evict h]
    exact congrArg (Cache.mk · _) (congrArg Cache.capacity (view_evict h))
  · rw [if_neg hcase, if_neg (mt hfull.mp hcase)]
    rfl

/-! ### What is asked of the cache -/

/-- An answer and the state after it are those that the one list of entries gives. -/
structure Refines {β : Type} (found : β × LinkedCache α) (expected : β × Cache α) : Prop where
  inStep : found.2.InStep
  answer : found.1 = expected.1
  state : found.2.view = expected.2

theorem refines_get? (h : c.InStep) (key : String) : Refines (c.get? key) (c.view.get? key) := by
  rw [Cache.get?, find?_view h, get?]
  cases hlink : c.link? key with
  | none => exact ⟨h, rfl, rfl⟩
  | some l =>
    obtain ⟨hl, rfl⟩ := (link?_eq_some_iff h).mp hlink
    dsimp only [Option.map_some]
    by_cases hcapacity : c.capacity = 0
    · have hunbounded : c.view.capacity = 0 := hcapacity
      rw [if_pos (.inl hcapacity), Cache.promote, if_pos hunbounded]
      exact ⟨h, rfl, rfl⟩
    · rw [← view_promote h hl hcapacity]
      by_cases hfront : c.links.head?.map (·.place) = some l.place
      · rw [if_pos (.inr hfront), promote_of_front h hl hfront]
        exact ⟨h, rfl, rfl⟩
      · rw [if_neg (not_or.mpr ⟨hcapacity, hfront⟩)]
        exact ⟨h.promote hl, rfl, rfl⟩

theorem refines_add (h : c.InStep) (key : String) (value : α) :
    Refines (c.add key value) (c.view.add key value) := by
  rw [Cache.add, find?_view h, add]
  cases hlink : c.link? key with
  | none => exact ⟨h.insert hlink value, rfl, view_insert h key value⟩
  | some l =>
    obtain ⟨hl, rfl⟩ := (link?_eq_some_iff h).mp hlink
    dsimp only [Option.map_some]
    by_cases hcapacity : 0 < c.capacity
    · rw [if_pos hcapacity]
      exact ⟨h.promote hl, rfl, view_promote h hl hcapacity.ne'⟩
    · have hunbounded : c.view.capacity = 0 := Nat.eq_zero_of_not_pos hcapacity
      rw [if_neg hcapacity, Cache.promote, if_pos hunbounded]
      exact ⟨h, rfl, rfl⟩

theorem refines_getOrMake (h : c.InStep) (key : String) (make : Unit → Except ε α) :
    Refines (c.getOrMake key make) (c.view.getOrMake key make) := by
  obtain ⟨hfound, hanswer, hview⟩ := refines_get? h key
  unfold getOrMake Cache.getOrMake
  generalize c.get? key = found at hfound hanswer hview
  generalize c.view.get? key = expected at hanswer hview
  obtain ⟨answer, d⟩ := found
  obtain ⟨_, _⟩ := expected
  obtain rfl : answer = _ := hanswer
  obtain rfl : d.view = _ := hview
  cases answer with
  | some value => exact ⟨hfound, rfl, rfl⟩
  | none =>
    dsimp only
    cases make () with
    | error e => exact ⟨hfound, rfl, rfl⟩
    | ok value =>
      obtain ⟨hadded, hactual, hstate⟩ := refines_add hfound key value
      exact ⟨hadded, congrArg (fun actual => Except.ok actual.1) hactual, hstate⟩

theorem refines_erase (h : c.InStep) (key : String) : Refines (c.erase key) (c.view.erase key) := by
  rw [Cache.erase, find?_view h, erase]
  cases hlink : c.link? key with
  | none =>
    have habsent : key ∉ c.view.keys := by
      rw [← Cache.find?_eq_none_iff, find?_view h, hlink]
      rfl
    have hentries : c.view.without key = c.view.entries := by
      refine List.filter_eq_self.mpr fun entry hentry => bne_iff_ne.mpr fun hkey => habsent ?_
      exact hkey ▸ List.mem_map_of_mem hentry
    exact ⟨h, rfl, congrArg (Cache.mk c.capacity) hentries.symm⟩
  | some l =>
    obtain ⟨hl, rfl⟩ := (link?_eq_some_iff h).mp hlink
    exact ⟨h.remove hl, rfl, congrArg (Cache.mk c.capacity) (view_remove h hl)⟩

theorem InStep.clear (c : LinkedCache α) : c.clear.InStep :=
  ⟨.nil, List.nodup_nil, List.nodup_nil, fun _ hl => absurd hl List.not_mem_nil⟩

/-- The cache after a request. -/
def act (c : LinkedCache α) : Cache.Request ε α → LinkedCache α
  | .get key => (c.get? key).2
  | .add key value => (c.add key value).2
  | .getOrMake key make => (c.getOrMake key make).2
  | .erase key => (c.erase key).2
  | .clear => c.clear

/-- The cache after a history of requests. -/
def after (c : LinkedCache α) (requests : List (Cache.Request ε α)) : LinkedCache α :=
  requests.foldl act c

theorem InStep.act (h : c.InStep) (r : Cache.Request ε α) :
    (c.act r).InStep ∧ (c.act r).view = c.view.act r := by
  cases r with
  | get key =>
    have hget := refines_get? h key
    exact ⟨hget.inStep, hget.state⟩
  | add key value =>
    have hadd := refines_add h key value
    exact ⟨hadd.inStep, hadd.state⟩
  | getOrMake key make =>
    have hmake := refines_getOrMake h key make
    exact ⟨hmake.inStep, hmake.state⟩
  | erase key =>
    have herase := refines_erase h key
    exact ⟨herase.inStep, herase.state⟩
  | clear => exact ⟨.clear c, rfl⟩

theorem InStep.after (h : c.InStep) (requests : List (Cache.Request ε α)) :
    (c.after requests).InStep ∧ (c.after requests).view = c.view.after requests := by
  induction requests generalizing c with
  | nil => exact ⟨h, rfl⟩
  | cons r requests ih =>
    obtain ⟨hstep, hview⟩ := h.act r
    obtain ⟨hrest, hviews⟩ := ih hstep
    exact ⟨hrest, hviews.trans (congrArg (Cache.after · requests) hview)⟩

/-- After every history of requests the list and the map are in step, the list is the one that a cache of
one list has after the same history, and whatever is asked next gets the same answer from both. -/
theorem after_ofCapacity (capacity : Int) (requests : List (Cache.Request ε α)) :
    let c : LinkedCache α := (ofCapacity capacity).after requests
    let plain : Cache α := (Cache.ofCapacity capacity).after requests
    c.InStep ∧ c.view = plain ∧ c.size = plain.size ∧
      (∀ key, Refines (c.get? key) (plain.get? key)) ∧
      (∀ key value, Refines (c.add key value) (plain.add key value)) ∧
      (∀ key (make : Unit → Except ε α), Refines (c.getOrMake key make) (plain.getOrMake key make)) ∧
      ∀ key, Refines (c.erase key) (plain.erase key) := by
  intro c plain
  have hempty : (ofCapacity capacity : LinkedCache α).InStep := .clear (ofCapacity capacity)
  obtain ⟨hstep, hview⟩ : c.InStep ∧ c.view = plain := hempty.after requests
  rw [← hview]
  exact ⟨hstep, rfl, (size_view hstep).symm, refines_get? hstep, refines_add hstep,
    refines_getOrMake hstep, refines_erase hstep⟩

end SheetFormula.LinkedCache
