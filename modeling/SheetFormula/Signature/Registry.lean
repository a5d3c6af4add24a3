import SheetFormula.Signature.Basic

/-!
Registries: the functions that formulas may call, found by name without regard to case.
-/

set_option autoImplicit false

namespace SheetFormula

/-- Signatures by name in capitals, in the order of the names. -/
structure Registry where
  entries : List (String × Signature)
deriving DecidableEq, Repr

namespace Registry

def empty : Registry := ⟨[]⟩

/-- Puts an entry in its place, for an older one of the same name if there is one. -/
def place (name : String) (s : Signature) : List (String × Signature) → List (String × Signature)
  | [] => [(name, s)]
  | (other, t) :: rest =>
    if name = other then (name, s) :: rest
    else if name < other then (name, s) :: (other, t) :: rest
    else (other, t) :: place name s rest

/-- Adds a signature under its name. -/
def add (r : Registry) (s : Signature) : Registry :=
  ⟨place (Text.upper s.name) s r.entries⟩

def ofList (signatures : List Signature) : Registry :=
  signatures.foldl add empty

/-- The signature of a function. -/
def get? (r : Registry) (name : String) : Option Signature :=
  r.entries.lookup (Text.upper name)

/-- The names, in order. -/
def names (r : Registry) : List String :=
  r.entries.map (·.1)

def size (r : Registry) : Nat :=
  r.entries.length

end Registry

end SheetFormula
