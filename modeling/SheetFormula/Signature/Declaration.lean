import SheetFormula.Signature.Argument
import SheetFormula.Signature.Basic
import SheetFormula.Text.Blank
import SheetFormula.Text.Casing
import SheetFormula.Text.Quoted
import SheetFormula.Text.Replace

/-!
Declarations of arguments: `name (number, range<number>, optional)`. After the name, in parentheses,
stand types and the words `optional`, `repeating` and `default=` with a value, in any order and case,
with commas between them. A comma between double quotes is part of a default value.
-/

set_option autoImplicit false

namespace SheetFormula

/-- Why a declaration cannot be read. -/
inductive Declaration.Error where
  | malformed (declaration : String)
  | emptyDefault (name : String)
  | unknownType (name part : String)
deriving DecidableEq, Repr

namespace Declaration

/-- The wording of an error. -/
def Error.message : Error → String
  | .malformed declaration => "invalid argument declaration " ++ Text.quoted declaration
  | .emptyDefault name => "argument " ++ Text.quoted name ++ ": empty default value"
  | .unknownType name part =>
    "argument " ++ Text.quoted name ++ ": unknown type " ++ Text.quoted part

/-- May begin a name. -/
def isNameStart (c : Char) : Bool :=
  c.isAlpha || c == '_'

/-- May stand in a name. -/
def isNameChar (c : Char) : Bool :=
  c.isAlphanum || c == '_'

/-- What stands between an opening parenthesis and the last closing one, after which only blanks may
follow. It is written on one line. -/
def parameters? (afterOpening : List Char) : Option (List Char) :=
  match afterOpening.reverse.dropWhile Text.isAsciiBlank with
  | ')' :: reversed => if reversed.contains '\n' then none else some reversed.reverse
  | _ => none

/-- The name of a declaration and the text between its parentheses, empty where it has none. -/
def split? (declaration : List Char) : Option (List Char × List Char) :=
  match declaration.dropWhile Text.isAsciiBlank with
  | [] => none
  | c :: cs =>
    if isNameStart c then
      let name := c :: cs.takeWhile isNameChar
      match (cs.dropWhile isNameChar).dropWhile Text.isAsciiBlank with
      | [] => some (name, [])
      | '(' :: rest => (parameters? rest).map (name, ·)
      | _ => none
    else none

/-- The parts between the commas that stand outside double quotes. -/
def splitParts (quoted : Bool) : List Char → List (List Char)
  | [] => [[]]
  | c :: cs =>
    if c = ',' ∧ !quoted then [] :: splitParts quoted cs
    else match splitParts (if c = '"' then !quoted else quoted) cs with
      | [] => [[c]]
      | part :: parts => (c :: part) :: parts

/-- What one part of a declaration says. -/
inductive Part where
  | optional
  | repeating
  | fallback (value : String)
  | type (t : ArgType)
deriving DecidableEq, Repr

/-- Reads one part, without the blanks around it. -/
def part (name : String) (cs : List Char) : Except Error Part :=
  let lower := cs.map Text.lowerChar
  if lower = "optional".toList then .ok .optional
  else if lower = "repeating".toList then .ok .repeating
  else match Text.after? "default=".toList lower with
    | some _ =>
      let value := Text.trim (cs.drop "default=".length)
      if value = [] then .error (.emptyDefault name) else .ok (.fallback (String.ofList value))
    | none =>
      match ArgType.ofTag? (Text.upper (String.ofList (cs.filter (· != ' ')))) with
      | some t => .ok (.type t)
      | none => .error (.unknownType name (String.ofList cs))

/-- Adds to an argument what a part says. -/
def Part.addTo (a : Argument) : Part → Argument
  | .optional => { a with optional := true }
  | .repeating => { a with repeating := true }
  | .fallback value => { a with fallback := some value }
  | .type t => { a with types := a.types ++ [t] }

/-- Reads the parts one by one, so that the first bad one is reported. -/
def addParts (a : Argument) : List (List Char) → Except Error Argument
  | [] => .ok a
  | p :: ps =>
    match part a.name (Text.trim p) with
    | .error e => .error e
    | .ok q => addParts (q.addTo a) ps

/-- An argument without a type takes any value. -/
def withSomeType (a : Argument) : Argument :=
  if a.types.isEmpty then { a with types := [.scalar .any] } else a

end Declaration

/-- Reads the declaration of an argument. -/
def Argument.ofDeclaration (declaration description : String) :
    Except Declaration.Error Argument :=
  match Declaration.split? declaration.toList with
  | none => .error (.malformed declaration)
  | some (name, body) =>
    let a : Argument := ⟨String.ofList name, description, [], false, false, none⟩
    if body.all Text.isBlank then .ok (Declaration.withSomeType a)
    else (Declaration.addParts a (Declaration.splitParts false body)).map Declaration.withSomeType

/-- Reads the declarations of a function's arguments; the first bad one is reported. -/
def Signature.ofDeclarations (name : String) (declarations : List String) :
    Except Declaration.Error Signature := do
  let arguments ← declarations.mapM fun d => Argument.ofDeclaration d ""
  return Signature.describe name arguments

end SheetFormula
