/-!
Arguments of functions as they are declared: a name, the types of value that are welcome, and whether
the argument may be left out or repeated.
-/

set_option autoImplicit false

namespace SheetFormula

/-- Types of single values. -/
inductive ScalarType where
  | any
  | boolean
  | number
  | string
  | date
deriving DecidableEq, Repr

/-- Types of arguments: a single value, a range of them, or the bare reference. -/
inductive ArgType where
  | scalar (type : ScalarType)
  | range
  | rangeOf (type : ScalarType)
  | reference
deriving DecidableEq, Repr

namespace ArgType

def scalarTag : ScalarType → String
  | .any => "ANY"
  | .boolean => "BOOLEAN"
  | .number => "NUMBER"
  | .string => "STRING"
  | .date => "DATE"

/-- The word for a type in declarations. -/
def tag : ArgType → String
  | .scalar type => scalarTag type
  | .range => "RANGE"
  | .rangeOf type => "RANGE<" ++ scalarTag type ++ ">"
  | .reference => "META"

/-- All the types that a declaration can name. -/
def all : List ArgType :=
  let scalars := [.any, .boolean, .number, .string, .date]
  scalars.map .scalar ++ .range :: scalars.map .rangeOf ++ [.reference]

/-- The type with a given tag. -/
def ofTag? (tag : String) : Option ArgType :=
  all.find? (·.tag == tag)

/-- A tag that names some type of range. -/
def isRangeTag (tag : String) : Bool :=
  "RANGE".toList.isPrefixOf tag.toList

def isRange (t : ArgType) : Bool :=
  isRangeTag t.tag

end ArgType

/-- A declared argument. -/
structure Argument where
  name : String
  description : String := ""
  types : List ArgType
  optional : Bool := false
  repeating : Bool := false
  /-- The text of the value that stands in for an argument left out. -/
  fallback : Option String := none
deriving DecidableEq, Repr

namespace Argument

/-- Wants the reference itself and not the value behind it. -/
def isReference (a : Argument) : Bool :=
  a.types.contains .reference

/-- Some range is welcome. -/
def acceptsRange (a : Argument) : Bool :=
  a.types.any ArgType.isRange

/-- Nothing but a range is welcome. -/
def rangeOnly (a : Argument) : Bool :=
  !a.types.isEmpty && a.types.all ArgType.isRange

/-- May be left out. -/
def isOptional (a : Argument) : Bool :=
  a.optional || a.fallback.isSome

end Argument

end SheetFormula
