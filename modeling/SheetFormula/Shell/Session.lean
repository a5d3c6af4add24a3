import SheetFormula.Compiler
import SheetFormula.Expr.Pretty
import SheetFormula.Text.Integer

/-!
A session in which formulas are tried out. Each line is a formula to lay out or a command that begins
with a colon; the answer is the text to show, or a complaint.
-/

set_option autoImplicit false

namespace SheetFormula

/-- What a session remembers from line to line. -/
structure Session where
  width : Int
  compiler : Compiler
  store : Store
  style : Style := {}
  /-- How texts are put in quotes. -/
  quote : String → String := Text.quoted

namespace Session

/-- A session without compiled formulas. -/
def start (width : Int) (locale : Locale) : Session where
  width := width
  compiler := { locale }
  store := .ofCapacity 0

/-- Why a line cannot be answered. -/
inductive Complaint where
  | fault (f : Fault)
  | invalidWidth (text : String)
  | notCached (formula : String)
  | unknownCommand (name : String)
deriving DecidableEq, Repr

/-- The wording of a complaint, with texts put in quotes by `quote`. -/
def Complaint.messageBy (quote : String → String) : Complaint → String
  | .fault f => f.messageBy quote
  | .invalidWidth text => "invalid width " ++ quote text
  | .notCached formula => "no cached routine for " ++ formula
  | .unknownCommand name => "unknown command " ++ name ++ ". Type :help for commands"

/-- The wording of a complaint. -/
def Complaint.message (c : Complaint) : String :=
  c.messageBy Text.quoted

/-- A text in red. -/
def red (s : String) : String :=
  "\x1b[31m" ++ s ++ "\x1b[0m"

/-- A text in blue. -/
def blue (s : String) : String :=
  "\x1b[94m" ++ s ++ "\x1b[0m"

def helpText : String :=
  "\nREPL commands:\n" ++
  "  :tokens F    Show the raw tokens of F\n" ++
  "  :ranges F    Show the tokens of F with ranges fused\n" ++
  "  :ast F       Show the syntax tree of F\n" ++
  "  :pretty F    Pretty-print F (the default for plain lines)\n" ++
  "  :compile F   Show the structural key and routine of F\n" ++
  "  :deps F      List the references F depends on\n" ++
  "  :width N     Set the pretty-printing width\n" ++
  "  :cache       Show the number of cached routines\n" ++
  "  :forget F    Drop the cached routine shared by formulas shaped like F\n" ++
  "  :clear       Drop every cached routine\n" ++
  "  :help        Show this help\n" ++
  "  :quit        Exit the REPL\n"

/-- Lines, each ended by a line break. -/
def lines (texts : List String) : String :=
  String.join (texts.map (· ++ "\n"))

/-- A text followed by blanks up to a width. -/
def padRight (width : Nat) (s : String) : String :=
  s ++ String.ofList (List.replicate (width - s.length) ' ')

/-- One line for each token: its kind in a column of its own and its text in quotes. -/
def tokenLines (quote : String → String) (tokens : List Token) : String :=
  lines (tokens.map fun t => padRight 20 t.kind.name ++ " " ++ quote t.text)

/-- The title of a node: its kind, what it stands for, its mark and the tokens that it covers. -/
def nodeTitle (quote : String → String) (e : Expr) : String :=
  let content := match e with
    | .leaf _ (.number value) => " " ++ value.text .listing
    | .leaf _ (.boolean value) => if value then " true" else " false"
    | .leaf l .string => " " ++ quote l.text
    | .leaf _ .empty => ""
    | .array .. => ""
    | e => " " ++ e.text
  let mark := if e.debug then " (debug)" else ""
  e.kind.name ++ content ++ mark ++ " [" ++ toString e.span.start ++ ".." ++
    toString e.span.stop ++ "]"

mutual

/-- The lines of a tree, children set in under their parent. -/
def treeLines (quote : String → String) (indent : String) : Expr → List String
  | .leaf l a => [indent ++ nodeTitle quote (.leaf l a)]
  | .unary l s e => (indent ++ nodeTitle quote (.unary l s e)) :: treeLines quote (indent ++ "  ") e
  | .binary l a b =>
    (indent ++ nodeTitle quote (.binary l a b)) ::
      (treeLines quote (indent ++ "  ") a ++ treeLines quote (indent ++ "  ") b)
  | .call l as => (indent ++ nodeTitle quote (.call l as)) :: listLines quote (indent ++ "  ") as
  | .array l rs => (indent ++ nodeTitle quote (.array l rs)) :: rowLines quote (indent ++ "  ") 0 rs

def listLines (quote : String → String) (indent : String) : List Expr → List String
  | [] => []
  | e :: es => treeLines quote indent e ++ listLines quote indent es

/-- The lines of the rows of an array, numbered from `index` on. -/
def rowLines (quote : String → String) (indent : String) (index : Nat) :
    List (List Expr) → List String
  | [] => []
  | r :: rs =>
    (indent ++ "row " ++ toString index) ::
      (listLines quote (indent ++ "  ") r ++ rowLines quote indent (index + 1) rs)

end

/-- Texts in brackets with blanks between them. -/
def bracketed (texts : List String) : String :=
  "[" ++ " ".intercalate texts ++ "]"

/-- What is shown of a compiled formula. -/
def compiledText (quote : String → String) (f : Compiled) (r : Routine) : String :=
  lines [
    "key:     " ++ f.normalForm,
    "numbers: " ++ bracketed (f.literals.numbers.map (·.text .listing)),
    "strings: " ++ bracketed (f.literals.strings.map quote),
    "symbols: " ++ bracketed (f.literals.symbols.map quote),
    blue ("\n".intercalate r.listing)]

/-- The answer to a line: the text to show or a complaint, what the compiler noted down, and the
session after it. -/
structure Answer where
  result : Except Complaint String
  session : Session
  notes : List Trace := []

/-- An answer that leaves the session as it is. -/
def say (s : Session) (text : String) : Answer :=
  { result := .ok text, session := s }

def complain (s : Session) (c : Complaint) : Answer :=
  { result := .error c, session := s }

/-- Reads a formula and shows something of it. -/
def showParsed (s : Session) (formula : String) (view : Expr → String) : Answer :=
  match Expr.parse { locale := s.compiler.locale } formula with
  | .ok e => s.say (view e)
  | .error f => s.complain (.fault f)

/-- Compiles a formula and shows something of it. -/
def showCompiled (s : Session) (formula : String) (view : Compiled → Routine → String) : Answer :=
  let (f, store, notes) := s.compiler.compile s.store formula
  let s := { s with store }
  match f.outcome with
  | .ok built => { s.say (view f built.routine) with notes }
  | .error fault => { s.complain (.fault fault) with notes }

/-- A line as a command and what follows it; a plain line is a formula. -/
def splitCommand (line : String) : String × String :=
  let cs := line.toList
  if cs.head? = some ':' then
    let command := cs.takeWhile (· != ' ')
    (String.ofList command, String.ofList (Text.trim (cs.drop (command.length + 1))))
  else ("", line)

/-- Sets the width; it must be positive. -/
def setWidth (s : Session) (text : String) : Answer :=
  match Text.readDecimalInteger text with
  | .ok n =>
    if 0 < n then { result := .ok "", session := { s with width := n } }
    else s.complain (.invalidWidth text)
  | .error _ => s.complain (.invalidWidth text)

/-- Answers a line. -/
def handle (s : Session) (line : String) : Answer :=
  let (command, argument) := splitCommand line
  let layOut (_ : Unit) : Answer :=
    s.showParsed argument fun e => blue (s.style.prettify s.width e) ++ "\n"
  match command with
  | "" => layOut ()
  | ":pretty" => layOut ()
  | ":tokens" => s.say (tokenLines s.quote (Token.tokenize s.compiler.locale argument))
  | ":ranges" => s.say (tokenLines s.quote (Token.rangeTokenize s.compiler.locale argument))
  | ":ast" => s.showParsed argument fun e => lines (treeLines s.quote "" e)
  | ":compile" => s.showCompiled argument (compiledText s.quote)
  | ":deps" => s.showCompiled argument fun f _ => lines f.literals.dependencies
  | ":width" => s.setWidth argument
  | ":cache" => s.say (toString s.store.size ++ " cached routines\n")
  | ":forget" =>
    let (removed, store) := s.compiler.forget s.store argument
    let s := { s with store }
    if removed then s.say "" else s.complain (.notCached argument)
  | ":clear" => { result := .ok "", session := { s with store := s.store.clear } }
  | ":help" => s.say helpText
  | command => s.complain (.unknownCommand command)

end Session

end SheetFormula
