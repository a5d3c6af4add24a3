import SheetFormula.Shell.Options
import SheetFormula.Shell.Session
import SheetFormula.Text.Line
import SheetFormula.Text.Loan

/-!
The program from the outside: it reads its options, answers a single line or talks line by line, and
keeps a history of what was typed. Everything here is a function of the words, the bytes typed and the
old history; only the reading and writing of streams is left to the caller. What is typed and what is
shown are symbols, since the reader may cut a character in two.
-/

set_option autoImplicit false

namespace SheetFormula

/-- What the program says of itself. -/
def version : String := "v0.1.0-dev"

namespace Repl

open Text (Symbol Loan)

def banner : String :=
  "Formula engine " ++ version ++
    "\nCtrl+C cancels input, Ctrl+D exits. Type :help for commands.\n"

def prompt : String := "fx> "

/-- How many lines of history are kept. -/
def historyLimit : Nat := 1000

/-- The last lines of a history. -/
def lastLines (history : List (List Symbol)) : List (List Symbol) :=
  history.drop (history.length - historyLimit)

/-- Adds a line to a history, unless it repeats the last one. -/
def remember (history : List (List Symbol)) (line : List Symbol) : List (List Symbol) :=
  if history.getLast? = some line then history else lastLines (history ++ [line])

/-- The history that a file holds. A line too long for the reader ends it, and so does one with a byte
that belongs to no character. -/
def readHistory (file : List UInt8) : List (List Symbol) :=
  let lines := ((Text.Line.ofBytes file).takeWhile (·.whole)).map fun l => Symbol.ofBytes l.bytes
  lastLines (lines.takeWhile (·.all Symbol.isChar))

/-- A talk between two lines. -/
structure Talk where
  session : Session
  history : List (List Symbol)

/-- What a line brings about. -/
structure Reply where
  talk : Talk
  out : List Symbol := []
  err : List Symbol := []
  notes : List Trace := []
  quits : Bool := false

/-- Takes a line that was typed. A blank line is passed over, and `:quit` ends the talk. The session
sees characters on loan in place of bytes that belong to no character. -/
def Talk.take (t : Talk) (typed : List Symbol) : Reply :=
  let loan := Loan.apartFrom typed
  let line := String.ofList (Text.trim (loan.chars typed))
  if line = "" then { talk := t }
  else if line = ":quit" then { talk := t, quits := true }
  else
    let answer := { t.session with quote := loan.quoted }.handle line
    let talk : Talk := ⟨answer.session, remember t.history (loan.symbols line)⟩
    match answer.result with
    | .ok out => { talk, out := loan.symbols out, notes := answer.notes }
    | .error c =>
      let err := Session.red (c.messageBy loan.quoted) ++ "\n"
      { talk, err := loan.symbols err, notes := answer.notes }

/-- What a whole run writes and how it ends. -/
structure Outcome where
  code : Nat
  out : List Symbol := []
  err : List Symbol := []
  history : Option (List (List Symbol)) := none
  notes : List Trace := []

/-- Talks until the lines end or one of them quits. A piece of a long line is a line to the talk. -/
def converse (t : Talk) : List (List Symbol) → Outcome
  | [] => { code := 0, out := Symbol.ofString (prompt ++ "\n"), history := some t.history }
  | line :: rest =>
    let reply := t.take line
    if reply.quits then { code := 0, out := Symbol.ofString prompt, history := some t.history }
    else
      let more := converse reply.talk rest
      { more with
        out := Symbol.ofString prompt ++ reply.out ++ more.out
        err := reply.err ++ more.err
        notes := reply.notes ++ more.notes }

/-- What the program does first: it ends at once, or begins to talk. -/
inductive Opening where
  | done (outcome : Outcome)
  | talk (session : Session)

/-- Answers the single line that the options hold. -/
def answerOnce (s : Session) (line : String) : Outcome :=
  let answer := s.handle line
  match answer.result with
  | .ok out => { code := 0, out := Symbol.ofString out, notes := answer.notes }
  | .error c =>
    { code := 1, err := Symbol.ofString (Session.red c.message ++ "\n"), notes := answer.notes }

/-- Follows the words of the command line. -/
def opening (words : List String) : Opening × Options :=
  match Options.read {} words with
  | .error refusal =>
    let complaint := match refusal.message? with
      | some message => message ++ "\n"
      | none => ""
    (.done { code := 2, err := Symbol.ofString (complaint ++ Options.usage) }, {})
  | .ok options =>
    match Options.locale? options.locale with
    | none =>
      let err := "formula: unknown locale " ++ Text.quoted options.locale ++ "\n"
      (.done { code := 2, err := Symbol.ofString err }, options)
    | some locale =>
      let session := Session.start options.width locale
      if options.line = "" then (.talk session, options)
      else (.done (answerOnce session options.line), options)

/-- A whole run on the words of the command line, all that is typed, and the file of old history. -/
def run (words : List String) (typed : List UInt8) (history : Option (List UInt8)) : Outcome :=
  match (opening words).1 with
  | .done outcome => outcome
  | .talk session =>
    let outcome := converse ⟨session, (history.map readHistory).getD []⟩
      ((Text.Line.ofBytes typed).map fun l => Symbol.ofBytes l.bytes)
    { outcome with out := Symbol.ofString banner ++ outcome.out }

/-- The file that holds a history. -/
def historyFile (history : List (List Symbol)) : List Symbol :=
  history.flatMap (· ++ [.char '\n'])

end Repl

end SheetFormula
