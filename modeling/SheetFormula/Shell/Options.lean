import SheetFormula.Locale
import SheetFormula.Text.Integer
import SheetFormula.Text.Quoted

/-!
The options of the command line. An option has one or two hyphens, and its value after an equals sign
or in the next word; a switch takes a value only after an equals sign. Options end at the first word
that is none, or after two bare hyphens.
-/

set_option autoImplicit false

namespace SheetFormula

/-- How the program was asked to work. -/
structure Options where
  width : Int := 80
  locale : String := "en"
  debug : Bool := false
  /-- A single line to answer; without one the program talks. -/
  line : String := ""
deriving DecidableEq, Repr

namespace Options

/-- Why the options cannot be followed. -/
inductive Refusal where
  | help
  | badSyntax (word : String)
  | undefined (name : String)
  | noArgument (name : String)
  | badSwitch (name value : String)
  | badValue (name value : String) (error : Text.IntegerError)
deriving DecidableEq, Repr

/-- The wording of a refusal; a call for help has none. -/
def Refusal.message? : Refusal → Option String
  | .help => none
  | .badSyntax word => some ("bad flag syntax: " ++ word)
  | .undefined name => some ("flag provided but not defined: -" ++ name)
  | .noArgument name => some ("flag needs an argument: -" ++ name)
  | .badSwitch name value =>
    some ("invalid boolean value " ++ Text.quoted value ++ " for -" ++ name ++ ": parse error")
  | .badValue name value error =>
    let why := match error with
      | .malformed => "parse error"
      | .outOfRange => "value out of range"
    some ("invalid value " ++ Text.quoted value ++ " for flag -" ++ name ++ ": " ++ why)

def usage : String :=
  "Usage of formula:\n" ++
  "  -debug\n    \tlog compiler traces to stderr\n" ++
  "  -e string\n    \tprocess a single line and exit\n" ++
  "  -locale string\n    \tformula locale (en, fr, de) (default \"en\")\n" ++
  "  -width int\n    \tpretty-printing width (default 80)\n"

/-- The truth value that a word stands for. -/
def switch? (value : String) : Option Bool :=
  if ["1", "t", "T", "true", "TRUE", "True"].contains value then some true
  else if ["0", "f", "F", "false", "FALSE", "False"].contains value then some false
  else none

/-- What a word of the command line is. -/
inductive Word where
  | plain
  | stop
  | malformed
  | option (name : String) (value : Option String)
deriving DecidableEq, Repr

/-- A name and the value after an equals sign, which cannot come first. -/
def splitValue (name : List Char) : Word :=
  let cut := (name.drop 1).takeWhile (· != '=')
  match name.drop (cut.length + 1) with
  | [] => .option (String.ofList name) none
  | _ :: value =>
    .option (String.ofList (name.take (cut.length + 1))) (some (String.ofList value))

/-- Reads a word. -/
def word (s : String) : Word :=
  match s.toList with
  | ['-', '-'] => .stop
  | '-' :: c :: rest =>
    let name := if c = '-' then rest else c :: rest
    match name with
    | [] => .malformed
    | '-' :: _ => .malformed
    | '=' :: _ => .malformed
    | name => splitValue name
  | _ => .plain

/-- Sets an option that needs a value. -/
def set (o : Options) (name value : String) : Except Refusal Options :=
  match name with
  | "width" =>
    match Text.readInteger value with
    | .ok width => .ok { o with width }
    | .error e => .error (.badValue name value e)
  | "locale" => .ok { o with locale := value }
  | _ => .ok { o with line := value }

/-- Sets the switch. -/
def setDebug (o : Options) (value : Option String) : Except Refusal Options :=
  match value with
  | none => .ok { o with debug := true }
  | some value =>
    match switch? value with
    | some debug => .ok { o with debug }
    | none => .error (.badSwitch "debug" value)

/-- Reads the words of the command line, from the left. -/
def read (o : Options) : List String → Except Refusal Options
  | [] => .ok o
  | w :: ws =>
    match word w with
    | .plain => .ok o
    | .stop => .ok o
    | .malformed => .error (.badSyntax w)
    | .option name value =>
      if name = "debug" then
        match o.setDebug value with
        | .ok o => read o ws
        | .error e => .error e
      else if name = "width" ∨ name = "locale" ∨ name = "e" then
        match value, ws with
        | some value, ws =>
          match o.set name value with
          | .ok o => read o ws
          | .error e => .error e
        | none, value :: ws =>
          match o.set name value with
          | .ok o => read o ws
          | .error e => .error e
        | none, [] => .error (.noArgument name)
      else if name = "help" ∨ name = "h" then .error .help
      else .error (.undefined name)

/-- The locale of a name. -/
def locale? (name : String) : Option Locale :=
  match name with
  | "en" => some .canonical
  | "fr" => some (.ofSeparators "," ";")
  | "de" => some (.ofSeparators "," ";")
  | _ => none

end Options

end SheetFormula
