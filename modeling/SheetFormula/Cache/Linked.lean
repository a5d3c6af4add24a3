import SheetFormula.Cache

/-!
A cache in two parts: a list of the entries with the most recently used first, and a map from each key to
its element of the list. Elements are moved and removed as themselves and not by their keys, so the parts
have to be kept in step: whatever puts an entry into one of them or takes it out does so in the other.
-/

set_option autoImplicit false

namespace SheetFormula

/-- An element of the list. No two elements have the same place in memory. -/
structure Link (α : Type) where
  place : Nat
  key : String
  value : α
deriving DecidableEq, Repr

namespace Link

variable {α : Type}

/-- The list without an element. -/
def remove (l : Link α) (links : List (Link α)) : List (Link α) :=
  links.filter (·.place != l.place)

/-- The list with an element of it moved to the front. -/
def moveToFront (l : Link α) (links : List (Link α)) : List (Link α) :=
  if links.any (·.place == l.place) then l :: l.remove links else links

end Link

/-- The list and the map, and how many elements have been made. A capacity of zero sets no bound. -/
structure LinkedCache (α : Type) where
  capacity : Nat
  links : List (Link α) := []
  items : List (String × Link α) := []
  made : Nat := 0
deriving DecidableEq, Repr

namespace LinkedCache

variable {α ε : Type}

/-- A cache without entries; a negative capacity sets no bound either. -/
def ofCapacity (capacity : Int) : LinkedCache α :=
  { capacity := capacity.toNat }

def size (c : LinkedCache α) : Nat :=
  c.items.length

/-- The element of a key. -/
def link? (c : LinkedCache α) (key : String) : Option (Link α) :=
  c.items.lookup key

/-- The map without a key. -/
def itemsWithout (c : LinkedCache α) (key : String) : List (String × Link α) :=
  c.items.filter (·.1 != key)

/-- Removes the least recently used entry. -/
def evict (c : LinkedCache α) : LinkedCache α :=
  match c.links.getLast? with
  | none => c
  | some l => { c with links := l.remove c.links, items := c.itemsWithout l.key }

/-- Makes an element for a new entry and puts it in front. -/
def push (c : LinkedCache α) (key : String) (value : α) : LinkedCache α :=
  let l : Link α := ⟨c.made, key, value⟩
  { c with links := l :: c.links, items := (key, l) :: c.itemsWithout key, made := c.made + 1 }

/-- Puts a new entry in; a full cache drops its last one before. -/
def insert (c : LinkedCache α) (key : String) (value : α) : LinkedCache α :=
  (if 0 < c.capacity ∧ c.capacity ≤ c.links.length then c.evict else c).push key value

/-- Moves an element to the front. -/
def promote (c : LinkedCache α) (l : Link α) : LinkedCache α :=
  { c with links := l.moveToFront c.links }

/-- Looks a key up; a hit counts as a use. Without a bound nothing is moved, nor is the element that stands
in front. -/
def get? (c : LinkedCache α) (key : String) : Option α × LinkedCache α :=
  match c.link? key with
  | none => (none, c)
  | some l =>
    if c.capacity = 0 ∨ c.links.head?.map (·.place) = some l.place then (some l.value, c)
    else (some l.value, c.promote l)

/-- Puts a value in unless its key is present. Gives the value that the cache now holds, and whether it
was present. -/
def add (c : LinkedCache α) (key : String) (value : α) : (α × Bool) × LinkedCache α :=
  match c.link? key with
  | some l => ((l.value, true), if 0 < c.capacity then c.promote l else c)
  | none => ((value, false), c.insert key value)

/-- The value of a key, made and put in if it is missing. What cannot be made leaves no trace. -/
def getOrMake (c : LinkedCache α) (key : String) (make : Unit → Except ε α) :
    Except ε α × LinkedCache α :=
  match c.get? key with
  | (some value, c) => (.ok value, c)
  | (none, c) =>
    match make () with
    | .error e => (.error e, c)
    | .ok value =>
      let ((actual, _), c) := c.add key value
      (.ok actual, c)

/-- Removes a key and tells whether it was present. -/
def erase (c : LinkedCache α) (key : String) : Bool × LinkedCache α :=
  match c.link? key with
  | none => (false, c)
  | some l => (true, { c with links := l.remove c.links, items := c.itemsWithout key })

/-- Removes all entries. -/
def clear (c : LinkedCache α) : LinkedCache α :=
  { c with links := [], items := [] }

end LinkedCache

end SheetFormula
