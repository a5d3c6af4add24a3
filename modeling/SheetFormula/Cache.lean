/-!
A cache with a bound: values by key, the most recently used first. A value stays as it was first put in
until its key is removed, and the least recently used one makes room when the cache is full. A cache
without a bound never moves its entries.
-/

set_option autoImplicit false

namespace SheetFormula

/-- Entries with the most recently used first. A capacity of zero sets no bound. -/
structure Cache (α : Type) where
  capacity : Nat
  entries : List (String × α)
deriving DecidableEq, Repr

namespace Cache

variable {α ε : Type}

/-- A cache without entries; a negative capacity sets no bound either. -/
def ofCapacity (capacity : Int) : Cache α := ⟨capacity.toNat, []⟩

def size (c : Cache α) : Nat :=
  c.entries.length

/-- The value of a key. -/
def find? (c : Cache α) (key : String) : Option α :=
  c.entries.lookup key

/-- The entries without a key. -/
def without (c : Cache α) (key : String) : List (String × α) :=
  c.entries.filter (·.1 != key)

/-- Moves an entry to the front if the cache has a bound. -/
def promote (c : Cache α) (key : String) (value : α) : Cache α :=
  if c.capacity = 0 then c else { c with entries := (key, value) :: c.without key }

/-- Looks a key up; a hit counts as a use. -/
def get? (c : Cache α) (key : String) : Option α × Cache α :=
  match c.find? key with
  | some value => (some value, c.promote key value)
  | none => (none, c)

/-- Puts a new entry in front; a full cache drops its last one. -/
def insert (c : Cache α) (key : String) (value : α) : Cache α :=
  let kept := if 0 < c.capacity ∧ c.capacity ≤ c.size then c.entries.dropLast else c.entries
  { c with entries := (key, value) :: kept }

/-- Puts a value in unless its key is present. Gives the value that the cache now holds, and whether it
was present. -/
def add (c : Cache α) (key : String) (value : α) : (α × Bool) × Cache α :=
  match c.find? key with
  | some old => ((old, true), c.promote key old)
  | none => ((value, false), c.insert key value)

/-- The value of a key, made and put in if it is missing. What cannot be made leaves no trace. -/
def getOrMake (c : Cache α) (key : String) (make : Unit → Except ε α) : Except ε α × Cache α :=
  match c.get? key with
  | (some value, c) => (.ok value, c)
  | (none, c) =>
    match make () with
    | .error e => (.error e, c)
    | .ok value =>
      let ((actual, _), c) := c.add key value
      (.ok actual, c)

/-- Removes a key and tells whether it was present. -/
def erase (c : Cache α) (key : String) : Bool × Cache α :=
  ((c.find? key).isSome, { c with entries := c.without key })

/-- Removes all entries. -/
def clear (c : Cache α) : Cache α :=
  { c with entries := [] }

end Cache

end SheetFormula
