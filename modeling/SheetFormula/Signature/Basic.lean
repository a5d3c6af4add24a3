import SheetFormula.Fault
import SheetFormula.Signature.Argument
import SheetFormula.Text.Casing
import SheetFormula.Word

/-!
Signatures of functions. A signature has the declared arguments and the numbers of arguments that a call
may have. `Signature.describe` derives the numbers from the declarations; they may be set otherwise. For
each position of a call there is the declaration that it falls on: the repeating declarations are gone
through in turn as often as whole groups are given, and what is left falls on those after them.
-/

set_option autoImplicit false

namespace SheetFormula

/-- A function with its declared arguments: how many must be given, how many can be given at most, if
there is a bound, how many repeat and how many may be left out. -/
structure Signature where
  name : String
  arguments : List Argument
  requiredCount : Int
  mostArguments? : Option Int
  repeatingCount : Int
  optionalCount : Int
deriving DecidableEq, Repr

/-- A place in the list of declared arguments, and whether the position in question falls on it. -/
structure Target where
  index : Int
  known : Bool
deriving DecidableEq, Repr

namespace Signature

/-- How many declarations repeat. -/
def groupSize (arguments : List Argument) : Nat :=
  arguments.countP (·.repeating)

/-- How many declarations may be left out. -/
def mayCount (arguments : List Argument) : Nat :=
  arguments.countP fun a => !a.repeating && a.isOptional

/-- How many declarations must be given. -/
def mustCount (arguments : List Argument) : Nat :=
  arguments.countP fun a => !a.repeating && !a.isOptional

/-- The signature with the numbers that follow from its declarations; there is no bound where arguments
repeat. Names of functions are kept in capitals. -/
def describe (name : String) (arguments : List Argument) : Signature where
  name := Text.upper name
  arguments
  requiredCount := mustCount arguments
  mostArguments? := if groupSize arguments = 0 then some arguments.length else none
  repeatingCount := groupSize arguments
  optionalCount := mayCount arguments

@[simp] theorem arguments_describe (name : String) (arguments : List Argument) :
    (describe name arguments).arguments = arguments := rfl

/-- The place of the first repeating argument. -/
def repeatingStart? (s : Signature) : Option Nat :=
  s.arguments.findIdx? (·.repeating)

/-- Why the arguments of a call from `start` on, `rest` of them, make no groups. What is left over after
whole groups may be no more than can be left out. -/
def groupFault? (s : Signature) (start rest : Int) : Option Reason :=
  let remainder := rest.tmod s.repeatingCount
  if 1 < s.repeatingCount ∧ 0 < rest ∧ remainder ≠ 0 ∧
      (rest.tdiv s.repeatingCount = 0 ∨ s.optionalCount < remainder) then
    some (.incompleteGroup s.name start s.repeatingCount)
  else none

/-- Why a call may not have `count` arguments. -/
def countFault? (s : Signature) (count : Int) : Option Reason :=
  if count < s.requiredCount then some (.tooFewArguments s.name s.requiredCount count)
  else match s.mostArguments?.filter (· < count) with
    | some most => some (.tooManyArguments s.name most count)
    | none =>
      match s.repeatingStart? with
      | some start => s.groupFault? start (count - start)
      | none => s.groupFault? (-1) (Word.wrap (count + 1))

/-- Checks the number of arguments of a call. -/
def checkCount (s : Signature) (count : Int) : Except Fault Unit :=
  match s.countFault? count with
  | none => .ok ()
  | some reason => .error ⟨.badExpression, reason, -1, "", some .argumentCount⟩

/-- The first position after the whole groups of repeating arguments. A group that is not whole is still
read as repeating if it is the only one. -/
def tailStart (s : Signature) (start : Nat) (count : Int) : Int :=
  let groups := (count - start).tdiv s.repeatingCount
  if groups = 0 then count else start + groups * s.repeatingCount

/-- The declaration on which a position of a call with `count` arguments falls. A position past the last
declaration falls on none; its index is a word all the same. -/
def target (s : Signature) (count position : Int) : Target :=
  match s.repeatingStart? with
  | none => ⟨position, 0 ≤ position ∧ position < s.arguments.length⟩
  | some start =>
    let tail := s.tailStart start count
    if position < 0 then ⟨0, false⟩
    else if position < start then ⟨position, true⟩
    else if position < tail then ⟨start + (position - start).tmod s.repeatingCount, true⟩
    else
      let index := start + s.repeatingCount + (position - tail)
      if index < s.arguments.length then ⟨index, true⟩
      else ⟨Word.wrap index, Word.wrap index < s.arguments.length⟩

end Signature

/-- A rule that finds the declaration for each position of a call. It may give up, with a text that says
why, on a call or on a single position. -/
abbrev Targeting := Signature → Nat → Except String (Nat → Except String Target)

/-- The usual rule. It counts groups of repeating arguments, which must not be empty. -/
def Targeting.standard : Targeting :=
  fun s count =>
    if s.repeatingStart?.isSome ∧ s.repeatingCount = 0 then
      .error "runtime error: integer divide by zero"
    else .ok fun position => .ok (s.target count position)

end SheetFormula
