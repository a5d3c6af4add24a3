import Mathlib.Data.List.DropRight
import Mathlib.Tactic.Common
import SheetFormula.Cache

/-!
What a cache holds after a history of requests. A key is touched where it is added, made or found. With
a bound, the cache holds the keys that were touched last, as many as there is room for; without one it
holds all of them. A value stays what it was when its key came in, until the key goes. A request that
finds nothing, makes nothing or removes nothing leaves the cache as it was.
-/

set_option autoImplicit false

namespace SheetFormula.Cache

variable {ε α : Type}

/-- What can be asked of a cache. -/
inductive Request (ε α : Type) where
  | get (key : String)
  | add (key : String) (value : α)
  | getOrMake (key : String) (make : Unit → Except ε α)
  | erase (key : String)
  | clear

namespace Request

def isErase : Request ε α → Bool
  | .erase _ => true
  | _ => false

def isClear : Request ε α → Bool
  | .clear => true
  | _ => false

/-- The key and the value that a request has for the cache, if its key is missing there. -/
def offer? : Request ε α → Option (String × α)
  | .add key value => some (key, value)
  | .getOrMake key make =>
    match make () with
    | .ok value => some (key, value)
    | .error _ => none
  | _ => none

/-- The requests after the last one that clears. -/
def sinceClear (requests : List (Request ε α)) : List (Request ε α) :=
  requests.rtakeWhile fun r => !r.isClear

end Request

/-- The cache after a request. -/
def act (c : Cache α) : Request ε α → Cache α
  | .get key => (c.get? key).2
  | .add key value => (c.add key value).2
  | .getOrMake key make => (c.getOrMake key make).2
  | .erase key => (c.erase key).2
  | .clear => c.clear

/-- The cache after a history of requests. -/
def after (c : Cache α) (requests : List (Request ε α)) : Cache α :=
  requests.foldl act c

/-- Puts a key in front of the others. -/
def bring (key : String) (recent : List String) : List String :=
  key :: recent.filter (· != key)

/-- The keys that count as touched after one more request, the last touched one first. A key is touched
where it is added, made or found, and no longer counts once it is erased or all is cleared. -/
def track (c : Cache α) (recent : List String) : Request ε α → List String
  | .get key => if (c.get? key).1.isSome then bring key recent else recent
  | .add key _ => bring key recent
  | .getOrMake key make => if (c.getOrMake key make).1.isOk then bring key recent else recent
  | .erase key => recent.filter (· != key)
  | .clear => []

/-- The keys that count as touched after a history of requests, with those from before it. -/
def trackAll (c : Cache α) (recent : List String) : List (Request ε α) → List String
  | [] => recent
  | r :: rs => trackAll (c.act r) (c.track recent r) rs

/-- The keys touched since the last clearing and since their own last removal, the last touched first. -/
def recent (c : Cache α) (requests : List (Request ε α)) : List String :=
  c.trackAll [] requests

theorem after_append (c : Cache α) (requests more : List (Request ε α)) :
    c.after (requests ++ more) = (c.after requests).after more :=
  List.foldl_append

theorem after_concat (c : Cache α) (requests : List (Request ε α)) (r : Request ε α) :
    c.after (requests ++ [r]) = (c.after requests).act r :=
  after_append c requests [r]

theorem trackAll_concat (c : Cache α) (touched : List String) (requests : List (Request ε α))
    (r : Request ε α) :
    c.trackAll touched (requests ++ [r]) =
      (c.after requests).track (c.trackAll touched requests) r := by
  induction requests generalizing c touched with
  | nil => rfl
  | cons q requests ih => exact ih (c.act q) (c.track touched q)

theorem recent_concat (c : Cache α) (requests : List (Request ε α)) (r : Request ε α) :
    c.recent (requests ++ [r]) = (c.after requests).track (c.recent requests) r :=
  trackAll_concat c [] requests r

theorem sinceClear_concat (requests : List (Request ε α)) (r : Request ε α) :
    Request.sinceClear (requests ++ [r]) =
      if r.isClear then [] else Request.sinceClear requests ++ [r] := by
  rw [Request.sinceClear, List.rtakeWhile_concat]
  cases r.isClear <;> rfl

/-! ### Keys and values -/

/-- The keys of the entries, in their order. -/
def keys (c : Cache α) : List String :=
  c.entries.map Prod.fst

variable {c : Cache α} {key other : String} {value old : α} {touched : List String}
  {r : Request ε α} {requests : List (Request ε α)}

theorem size_eq_length_keys (c : Cache α) : c.size = c.keys.length :=
  (List.length_map _).symm

theorem isSome_find? (c : Cache α) (key : String) : (c.find? key).isSome ↔ key ∈ c.keys := by
  simp only [find?, keys, List.lookup_isSome_iff, List.mem_map, beq_iff_eq]
  exact exists_congr fun entry => and_congr_right fun _ => eq_comm

theorem find?_eq_none_iff : c.find? key = none ↔ key ∉ c.keys := by
  rw [← isSome_find?, Bool.not_eq_true, Option.isSome_eq_false_iff, Option.isNone_iff_eq_none]

theorem mem_keys (h : c.find? key = some value) : key ∈ c.keys :=
  (isSome_find? c key).mp (by rw [h]; rfl)

theorem keys_erase (c : Cache α) (key : String) :
    (c.erase key).2.keys = c.keys.filter (· != key) := by
  rw [keys, keys, List.filter_map]
  rfl

theorem keys_promote (c : Cache α) (key : String) (value : α) :
    (c.promote key value).keys = if c.capacity = 0 then c.keys else bring key c.keys := by
  unfold promote
  split
  · rfl
  · rw [bring, ← keys_erase]
    rfl

theorem keys_insert (c : Cache α) (key : String) (value : α) :
    (c.insert key value).keys =
      key :: if 0 < c.capacity ∧ c.capacity ≤ c.size then c.keys.dropLast else c.keys := by
  simp only [insert, keys]
  split
  · rw [List.map_cons, List.map_dropLast]
  · rfl

@[simp] theorem capacity_promote (c : Cache α) (key : String) (value : α) :
    (c.promote key value).capacity = c.capacity := by
  unfold promote
  split <;> rfl

theorem lookup_cons (key other : String) (value : α) (entries : List (String × α)) :
    ((key, value) :: entries).lookup other =
      if other = key then some value else entries.lookup other := by
  rw [List.lookup_cons]
  by_cases h : other = key
  · rw [if_pos h, beq_iff_eq.mpr h]
  · rw [if_neg h, beq_eq_false_iff_ne.mpr h]

theorem lookup_without (c : Cache α) (key other : String) :
    (c.without key).lookup other = if other = key then none else c.find? other := by
  unfold without find?
  induction c.entries with
  | nil => simp
  | cons entry entries ih =>
    obtain ⟨k, v⟩ := entry
    by_cases hk : k = key
    · subst hk
      rw [List.filter_cons_of_neg (by simp), ih, lookup_cons]
      split <;> rfl
    · rw [List.filter_cons_of_pos (by simpa using hk), lookup_cons, lookup_cons, ih]
      by_cases hother : other = k
      · subst hother
        simp [hk]
      · simp [hother]

theorem find?_promote (h : c.find? key = some value) (other : String) :
    (c.promote key value).find? other = c.find? other := by
  unfold promote
  split
  · rfl
  · rw [find?, lookup_cons, lookup_without]
    by_cases hother : other = key
    · simp [hother, h]
    · simp [hother]

/-- Of a list without its last entry, a key has the value that it has in the list or none. -/
theorem lookup_dropLast (entries : List (String × α)) (key : String) :
    entries.dropLast.lookup key = entries.lookup key ∨ entries.dropLast.lookup key = none := by
  by_cases h : entries = []
  · simp [h]
  · cases hlookup : entries.dropLast.lookup key with
    | none => exact .inr rfl
    | some value =>
      conv =>
        lhs
        rw [← List.dropLast_append_getLast h, List.lookup_append, hlookup]
      exact .inl rfl

theorem find?_insert (c : Cache α) (key : String) (value : α) :
    (c.insert key value).find? key = some value := by
  rw [insert, find?, lookup_cons, if_pos rfl]

theorem find?_insert_of_ne (h : other ≠ key) (c : Cache α) (value : α) :
    (c.insert key value).find? other = c.find? other ∨ (c.insert key value).find? other = none := by
  simp only [insert, find?, lookup_cons, if_neg h]
  split
  · exact lookup_dropLast c.entries other
  · exact .inl rfl

/-! ### What a request does -/

/-- What a request does to a cache and to the keys that count as touched. -/
inductive Effect (c : Cache α) (touched : List String) :
    Request ε α → Cache α → List String → Prop
  | nothing {r : Request ε α} (kept : r.isErase = false ∧ r.isClear = false) :
    Effect c touched r c touched
  | hit {r : Request ε α} {key : String} {old : α} (kept : r.isErase = false ∧ r.isClear = false)
    (found : c.find? key = some old) :
    Effect c touched r (c.promote key old) (bring key touched)
  | insert {r : Request ε α} {key : String} {value : α}
    (kept : r.isErase = false ∧ r.isClear = false) (missing : c.find? key = none)
    (offer : r.offer? = some (key, value)) :
    Effect c touched r (c.insert key value) (bring key touched)
  | erase (key : String) :
    Effect c touched (.erase key) (c.erase key).2 (touched.filter (· != key))
  | clear : Effect c touched .clear c.clear []

theorem effect (c : Cache α) (touched : List String) (r : Request ε α) :
    Effect c touched r (c.act r) (c.track touched r) := by
  cases r with
  | get key =>
    cases h : c.find? key with
    | none =>
      simp only [act, track, get?, h]
      exact .nothing ⟨rfl, rfl⟩
    | some old =>
      simp only [act, track, get?, h]
      exact .hit ⟨rfl, rfl⟩ h
  | add key value =>
    cases h : c.find? key with
    | none =>
      simp only [act, track, add, h]
      exact .insert ⟨rfl, rfl⟩ h rfl
    | some old =>
      simp only [act, track, add, h]
      exact .hit ⟨rfl, rfl⟩ h
  | getOrMake key make =>
    cases h : c.find? key with
    | none =>
      cases hmake : make () with
      | error e =>
        simp only [act, track, getOrMake, get?, h, hmake]
        exact .nothing ⟨rfl, rfl⟩
      | ok value =>
        simp only [act, track, getOrMake, get?, add, h, hmake]
        exact .insert ⟨rfl, rfl⟩ h (by simp only [Request.offer?, hmake])
    | some old =>
      simp only [act, track, getOrMake, get?, h]
      exact .hit ⟨rfl, rfl⟩ h
  | erase key => exact .erase key
  | clear => exact .clear

/-! ### Recent keys -/

theorem nodup_bring (h : touched.Nodup) (key : String) : (bring key touched).Nodup :=
  List.nodup_cons.mpr ⟨by simp, h.filter _⟩

theorem bring_perm (h : touched.Nodup) (hkey : key ∈ touched) :
    (bring key touched).Perm touched := by
  rw [bring, ← h.erase_eq_filter]
  exact (List.perm_cons_erase hkey).symm

theorem filter_ne_of_not_mem (h : key ∉ touched) : touched.filter (· != key) = touched :=
  List.filter_eq_self.mpr fun _ hother => bne_iff_ne.mpr fun heq => h (heq ▸ hother)

theorem bring_prefix {some all : List String} (h : some <+: all) (key : String) :
    bring key some <+: bring key all :=
  List.cons_prefix_cons.mpr ⟨rfl, h.filter _⟩

/-- The cache holds the keys that count as touched: all of them without a bound, the first ones with
one. An intact cache, from which nothing was erased, has no room left for another one. -/
structure Holds (c : Cache α) (touched : List String) (intact : Prop) : Prop where
  nodup : touched.Nodup
  all : c.capacity = 0 → c.keys.Perm touched
  first : 0 < c.capacity → c.keys <+: touched
  room : 0 < c.capacity → c.size ≤ c.capacity
  full : 0 < c.capacity → intact → c.size = min c.capacity touched.length

variable {intact still : Prop}

theorem Holds.mem (h : c.Holds touched intact) (hkey : key ∈ c.keys) : key ∈ touched := by
  rcases Nat.eq_zero_or_pos c.capacity with hzero | hpos
  · exact (h.all hzero).subset hkey
  · exact (h.first hpos).subset hkey

theorem Holds.mono (h : c.Holds touched intact) (hintact : still → intact) :
    c.Holds touched still :=
  ⟨h.nodup, h.all, h.first, h.room, fun hpos hstill => h.full hpos (hintact hstill)⟩

theorem Holds.hit (h : c.Holds touched intact) (hfound : c.find? key = some old) :
    (c.promote key old).Holds (bring key touched) intact := by
  have hkey := mem_keys hfound
  have hperm := bring_perm h.nodup (h.mem hkey)
  refine ⟨nodup_bring h.nodup key, ?_, ?_, ?_, ?_⟩ <;>
    rw [capacity_promote] <;> intro hcapacity
  · rw [keys_promote, if_pos hcapacity]
    exact (h.all hcapacity).trans hperm.symm
  · rw [keys_promote, if_neg (Nat.ne_of_gt hcapacity)]
    exact bring_prefix (h.first hcapacity) key
  all_goals
    have hnodup := h.nodup.sublist (h.first hcapacity).sublist
    have hsize : (c.promote key old).size = c.size := by
      rw [size_eq_length_keys, keys_promote, if_neg (Nat.ne_of_gt hcapacity),
        (bring_perm hnodup hkey).length_eq, ← size_eq_length_keys]
    rw [hsize]
  · exact h.room hcapacity
  · rw [hperm.length_eq]
    exact h.full hcapacity

theorem size_insert (c : Cache α) (key : String) (value : α) :
    (c.insert key value).size =
      (if 0 < c.capacity ∧ c.capacity ≤ c.size then c.size - 1 else c.size) + 1 := by
  rw [size_eq_length_keys, keys_insert, List.length_cons]
  split
  · rw [List.length_dropLast, ← size_eq_length_keys]
  · rw [← size_eq_length_keys]

theorem Holds.insert (h : c.Holds touched intact) (hmissing : c.find? key = none) (value : α) :
    (c.insert key value).Holds (bring key touched) intact := by
  have hkey := find?_eq_none_iff.mp hmissing
  refine ⟨nodup_bring h.nodup key, fun (hzero : c.capacity = 0) => ?_,
    fun (hpos : 0 < c.capacity) => ?_, fun (hpos : 0 < c.capacity) => ?_,
    fun (hpos : 0 < c.capacity) hintact => ?_⟩
  · have hperm := h.all hzero
    rw [keys_insert, if_neg (by omega), bring,
      filter_ne_of_not_mem fun hmem => hkey (hperm.mem_iff.mpr hmem)]
    exact hperm.cons key
  · have hprefix : c.keys <+: touched.filter (· != key) := by
      rw [← filter_ne_of_not_mem hkey]
      exact (h.first hpos).filter _
    rw [keys_insert]
    refine List.cons_prefix_cons.mpr ⟨rfl, ?_⟩
    split
    · exact (List.dropLast_prefix _).trans hprefix
    · exact hprefix
  · have hroom := h.room hpos
    change (c.insert key value).size ≤ c.capacity
    rw [size_insert]
    split <;> omega
  · have hroom := h.room hpos
    have hfull := h.full hpos hintact
    have hlength := (h.first hpos).length_le
    rw [← size_eq_length_keys] at hlength
    change (c.insert key value).size = min c.capacity (bring key touched).length
    rw [size_insert]
    by_cases hmem : key ∈ touched
    · -- a key that was dropped before is touched again, so the cache was full
      have hne : c.size ≠ touched.length := by
        intro heq
        rw [size_eq_length_keys] at heq
        exact hkey ((h.first hpos).eq_of_length heq ▸ hmem)
      rw [(bring_perm h.nodup hmem).length_eq]
      split <;> omega
    · rw [bring, filter_ne_of_not_mem hmem, List.length_cons]
      split <;> omega

theorem Holds.erase (h : c.Holds touched intact) (hstill : ¬ still) (key : String) :
    (c.erase key).2.Holds (touched.filter (· != key)) still := by
  refine ⟨h.nodup.filter _, fun (hzero : c.capacity = 0) => ?_, fun (hpos : 0 < c.capacity) => ?_,
    fun (hpos : 0 < c.capacity) => ?_, fun _ hintact => absurd hintact hstill⟩
  · rw [keys_erase]
    exact (h.all hzero).filter _
  · rw [keys_erase]
    exact (h.first hpos).filter _
  · exact (List.length_filter_le ..).trans (h.room hpos)

theorem holds_clear (c : Cache α) : c.clear.Holds [] still :=
  ⟨List.nodup_nil, fun _ => .refl _, fun _ => List.prefix_rfl, fun _ => Nat.zero_le _,
    fun _ _ => (Nat.min_zero _).symm⟩

/-- One request keeps the cache in step with the keys that count as touched. -/
theorem Holds.act (h : c.Holds touched intact) (r : Request ε α)
    (hstill : still → r.isClear = true ∨ intact ∧ r.isErase = false) :
    (c.act r).Holds (c.track touched r) still := by
  have heffect := effect c touched r
  generalize c.act r = d, c.track touched r = after at heffect
  have hkept (kept : r.isErase = false ∧ r.isClear = false) : still → intact := by
    intro hs
    rcases hstill hs with hclear | hintact
    · rw [kept.2] at hclear
      cases hclear
    · exact hintact.1
  cases heffect with
  | nothing kept => exact h.mono (hkept kept)
  | hit kept found => exact (h.hit found).mono (hkept kept)
  | insert kept missing offer => exact (h.insert missing _).mono (hkept kept)
  | erase key => exact h.erase (fun hs => by simpa [Request.isErase, Request.isClear] using hstill hs) key
  | clear => exact holds_clear c

theorem capacity_act (c : Cache α) (r : Request ε α) : (c.act r).capacity = c.capacity := by
  have heffect := effect c [] r
  generalize c.act r = d, c.track [] r = after at heffect
  cases heffect with
  | hit kept found => exact capacity_promote ..
  | _ => rfl

theorem capacity_after (c : Cache α) (requests : List (Request ε α)) :
    (c.after requests).capacity = c.capacity := by
  induction requests using List.reverseRecOn with
  | nil => rfl
  | append_singleton requests r ih => rw [after_concat, capacity_act, ih]

/-- Nothing was erased since the last clearing. -/
def Intact (requests : List (Request ε α)) : Prop :=
  ∀ r ∈ Request.sinceClear requests, r.isErase = false

theorem holds_after (capacity : Int) (requests : List (Request ε α)) :
    ((ofCapacity capacity : Cache α).after requests).Holds
      ((ofCapacity capacity : Cache α).recent requests) (Intact requests) := by
  induction requests using List.reverseRecOn with
  | nil => exact holds_clear (ofCapacity capacity)
  | append_singleton requests r ih =>
    rw [after_concat, recent_concat]
    refine ih.act r fun hintact => ?_
    rw [Intact, sinceClear_concat] at hintact
    split at hintact
    · exact .inl ‹_›
    · obtain ⟨hbefore, hlast⟩ := List.forall_mem_append.mp hintact
      exact .inr ⟨hbefore, hlast r (List.mem_singleton_self r)⟩

/-! ### Values -/

/-- A key that is present keeps its value or goes. -/
theorem find?_act_of_some (h : c.find? key = some value) (r : Request ε α) :
    (c.act r).find? key = some value ∨ (c.act r).find? key = none := by
  have heffect := effect c [] r
  generalize c.act r = d, c.track [] r = after at heffect
  cases heffect with
  | nothing kept => exact .inl h
  | hit kept found => exact .inl (by rw [find?_promote found, h])
  | @insert _ other _ kept missing offer =>
    have hne : key ≠ other := by
      rintro rfl
      rw [h] at missing
      cases missing
    rw [← h]
    exact find?_insert_of_ne hne c _
  | erase other =>
    rw [erase, find?, lookup_without]
    split
    · exact .inr rfl
    · exact .inl h
  | clear => exact .inr rfl

/-- A key comes in with the value that the request has for it. -/
theorem offer?_of_find?_act (h : c.find? key = none) (hact : (c.act r).find? key = some value) :
    r.offer? = some (key, value) := by
  have heffect := effect c [] r
  generalize c.act r = d, c.track [] r = after at heffect hact
  cases heffect with
  | nothing kept =>
    rw [h] at hact
    cases hact
  | hit kept found =>
    rw [find?_promote found, h] at hact
    cases hact
  | @insert _ other _ kept missing offer =>
    by_cases hother : key = other
    · subst hother
      rw [find?_insert] at hact
      rw [offer, Option.some.inj hact]
    · rcases find?_insert_of_ne hother c _ with heq | heq <;> rw [heq] at hact
      · rw [h] at hact
        cases hact
      · cases hact
  | erase other =>
    rw [erase, find?, lookup_without] at hact
    split at hact
    · cases hact
    · rw [h] at hact
      cases hact
  | clear => cases hact

/-- A missing key that a request has a value for comes in. -/
theorem find?_act_of_offer? (h : c.find? key = none) (hoffer : r.offer? = some (key, value)) :
    (c.act r).find? key = some value := by
  cases r with
  | add other given =>
    cases hoffer
    simp only [act, add, h]
    exact find?_insert c key value
  | getOrMake other make =>
    simp only [Request.offer?] at hoffer
    split at hoffer
    · rename_i hmake
      cases hoffer
      simp only [act, getOrMake, get?, add, h, hmake]
      exact find?_insert c key value
    · cases hoffer
  | _ => cases hoffer

/-- A key that stays present keeps its value. -/
theorem find?_after (h : c.find? key = some value)
    (hstays : ∀ middle, middle <+: requests → key ∈ (c.after middle).keys) :
    (c.after requests).find? key = some value := by
  induction requests using List.reverseRecOn with
  | nil => exact h
  | append_singleton requests r ih =>
    have hbefore := ih fun middle hmiddle => hstays middle (hmiddle.trans (List.prefix_append ..))
    have hpresent := hstays _ List.prefix_rfl
    rw [after_concat] at hpresent ⊢
    refine (find?_act_of_some hbefore r).resolve_right fun hnone => ?_
    exact find?_eq_none_iff.mp hnone hpresent

/-- A key has the value with which it last came in. -/
theorem find?_after_iff (c : Cache α) (hempty : c.keys = []) (requests : List (Request ε α))
    (key : String) (value : α) :
    (c.after requests).find? key = some value ↔
      ∃ before r after, requests = before ++ r :: after ∧ r.offer? = some (key, value) ∧
        key ∉ (c.after before).keys ∧
        ∀ middle, middle <+: after → key ∈ (c.after (before ++ r :: middle)).keys := by
  constructor
  · induction requests using List.reverseRecOn with
    | nil =>
      intro hfind
      have hmem := mem_keys (c := c) hfind
      rw [hempty] at hmem
      cases hmem
    | append_singleton requests q ih =>
      intro hfind
      have hpresent := mem_keys hfind
      rw [after_concat] at hfind
      -- the key came in with the last request, or it was there and has kept its value
      cases hbefore : (c.after requests).find? key with
      | none =>
        refine ⟨requests, q, [], rfl, offer?_of_find?_act hbefore hfind,
          find?_eq_none_iff.mp hbefore, fun middle hmiddle => ?_⟩
        rwa [List.prefix_nil.mp hmiddle]
      | some found =>
        obtain rfl : found = value := by
          rcases find?_act_of_some hbefore q with heq | heq <;> rw [heq] at hfind <;> cases hfind
          rfl
        obtain ⟨before, r, after, rfl, hoffer, habsent, hstays⟩ := ih hbefore
        refine ⟨before, r, after ++ [q], by simp, hoffer, habsent, fun middle hmiddle => ?_⟩
        rcases List.prefix_concat_iff.mp hmiddle with rfl | hmiddle
        · simpa using hpresent
        · exact hstays middle hmiddle
  · rintro ⟨before, r, after, rfl, hoffer, habsent, hstays⟩
    have hcame := find?_act_of_offer? (find?_eq_none_iff.mpr habsent) hoffer
    have hafter (more : List (Request ε α)) :
        c.after (before ++ r :: more) = ((c.after before).act r).after more :=
      after_append c before (r :: more)
    rw [hafter]
    refine find?_after hcame fun middle hmiddle => ?_
    rw [← hafter]
    exact hstays middle hmiddle

/-! ### Requests without effect -/

theorem get?_fst (c : Cache α) (key : String) : (c.get? key).1 = c.find? key := by
  unfold get?
  split
  · exact Eq.symm ‹_›
  · exact Eq.symm ‹_›

theorem isSome_get? (c : Cache α) (key : String) : (c.get? key).1.isSome ↔ key ∈ c.keys := by
  rw [get?_fst, isSome_find?]

theorem get?_unchanged (h : (c.get? key).1 = none) : (c.get? key).2 = c := by
  unfold get? at h ⊢
  split at h
  · cases h
  · rfl

theorem getOrMake_unchanged {make : Unit → Except ε α} {e : ε}
    (h : (c.getOrMake key make).1 = .error e) : (c.getOrMake key make).2 = c := by
  cases hfind : c.find? key with
  | some value =>
    simp only [getOrMake, get?, hfind] at h
    cases h
  | none =>
    cases hmake : make () with
    | ok value =>
      simp only [getOrMake, get?, hfind, hmake] at h
      cases h
    | error e => simp only [getOrMake, get?, hfind, hmake]

theorem erase_unchanged (h : (c.erase key).1 = false) : (c.erase key).2 = c := by
  have habsent : key ∉ c.keys := by
    rw [← isSome_find?]
    exact Bool.eq_false_iff.mp h
  have hwithout : c.without key = c.entries :=
    List.filter_eq_self.mpr fun entry hentry => bne_iff_ne.mpr fun heq =>
      habsent (heq ▸ List.mem_map_of_mem hentry)
  rw [erase, hwithout]

/-! ### The law of the cache -/

/-- After every history of requests, the keys in the cache are the ones touched last: all of them
without a bound, with one no more than fit, and as many as fit if nothing was erased since the last
clearing. Each has the value with which it last came in, whatever was added or made for it since. What
finds, makes or removes nothing leaves the cache as it is. -/
theorem after_holds_recent (capacity : Int) (requests : List (Request ε α)) :
    let fresh : Cache α := ofCapacity capacity
    let c := fresh.after requests
    let recent := fresh.recent requests
    (∃ present, present <+: recent ∧ present.Nodup ∧
      (∀ key, key ∈ present ↔ (c.get? key).1.isSome) ∧
      c.size = present.length ∧
      (capacity ≤ 0 → present = recent) ∧
      (0 < capacity → (present.length : Int) ≤ capacity) ∧
      (0 < capacity → Intact requests → (present.length : Int) = min capacity recent.length)) ∧
    (∀ key value, (c.get? key).1 = some value ↔
      ∃ before r later, requests = before ++ r :: later ∧ r.offer? = some (key, value) ∧
        ((fresh.after before).get? key).1 = none ∧
        ∀ middle, middle <+: later → ((fresh.after (before ++ r :: middle)).get? key).1.isSome) ∧
    (∀ key, (c.get? key).1 = none → (c.get? key).2 = c) ∧
    (∀ key (make : Unit → Except ε α) e, (c.getOrMake key make).1 = .error e →
      (c.getOrMake key make).2 = c) ∧
    (∀ key, (c.erase key).1 = false → (c.erase key).2 = c) := by
  intro fresh c recent
  have hholds : c.Holds recent (Intact requests) := holds_after capacity requests
  have hcapacity : c.capacity = capacity.toNat := capacity_after fresh requests
  refine ⟨?_, ?_, fun _ => get?_unchanged, fun _ _ _ => getOrMake_unchanged,
    fun _ => erase_unchanged⟩
  · rcases Int.lt_or_le 0 capacity with hpos | hneg
    · have hbound : 0 < c.capacity := by omega
      refine ⟨c.keys, hholds.first hbound, hholds.nodup.sublist (hholds.first hbound).sublist,
        fun key => (isSome_get? c key).symm, size_eq_length_keys c, fun h => ?_, fun _ => ?_,
        fun _ hintact => ?_⟩
      · omega
      · have hroom := hholds.room hbound
        rw [← size_eq_length_keys]
        omega
      · have hfull := hholds.full hbound hintact
        rw [← size_eq_length_keys]
        omega
    · have hperm := hholds.all (by omega : c.capacity = 0)
      refine ⟨recent, List.prefix_rfl, hholds.nodup, fun key => ?_, ?_, fun _ => rfl, fun h => ?_,
        fun h => ?_⟩
      · rw [isSome_get?, hperm.mem_iff]
      · rw [size_eq_length_keys, hperm.length_eq]
      · omega
      · omega
  · intro key value
    simp only [get?_fst, find?_eq_none_iff, isSome_find?]
    exact find?_after_iff fresh rfl requests key value

/-- In a full cache a third key takes the place of the one touched least recently, and a value added for
a present key is not taken. -/
theorem third_key_drops_least_recent :
    let fresh : Cache Nat := ofCapacity 2
    let requests : List (Request String Nat) :=
      [.add "a" 1, .add "b" 2, .get "a", .getOrMake "c" fun _ => .ok 3, .get "b", .add "a" 4]
    let c := fresh.after requests
    fresh.recent requests = ["a", "c", "b"] ∧ Intact requests ∧
      (∃ present, present <+: ["a", "c", "b"] ∧ (present.length : Int) = 2 ∧
        ∀ key, key ∈ present ↔ (c.get? key).1.isSome) ∧
      (c.get? "a").1 = some 1 ∧ (c.get? "b").2 = c := by
  intro fresh requests c
  have hrecent : fresh.recent requests = ["a", "c", "b"] := by decide
  have hintact : Intact requests := by
    simp [requests, Intact, Request.sinceClear, List.rtakeWhile, Request.isErase, Request.isClear]
  obtain ⟨⟨present, hprefix, -, hpresent, -, -, -, hfull⟩, -, hmissing, -⟩ :=
    after_holds_recent 2 requests
  rw [hrecent] at hprefix hfull
  exact ⟨hrecent, hintact, ⟨present, hprefix, hfull (by decide) hintact, hpresent⟩, by decide,
    hmissing "b" (by decide)⟩

end SheetFormula.Cache
