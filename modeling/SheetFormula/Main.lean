import SheetFormula.Shell.Repl

/-!
The command `formula`: it connects the talk of `Repl` with the terminal and the history file.
-/

set_option autoImplicit false

namespace SheetFormula.Main

/-- The file that keeps the history, in the home directory. -/
def historyPath : IO String := do
  let home ← IO.getEnv "HOME"
  return home.getD "" ++ "/.formula_history"

def readHistory (path : String) : IO (List (List Text.Symbol)) := do
  try
    return Repl.readHistory (← IO.FS.readBinFile path).toList
  catch _ =>
    return []

/-- The bytes that spell symbols. -/
def bytesOf (symbols : List Text.Symbol) : ByteArray :=
  (symbols.flatMap Text.Symbol.toBytes).toByteArray

def writeHistory (path : String) (history : List (List Text.Symbol)) : IO Unit := do
  try
    IO.FS.writeBinFile path (bytesOf (Repl.historyFile history))
  catch _ =>
    return

/-- Shows what the compiler noted down, if that was asked for. -/
def showNotes (debug : Bool) (notes : List Trace) : IO Unit := do
  if debug then
    for note in notes do
      IO.eprintln note.text

/-- Talks until the input ends or a line quits; gives the history. The lines that are `waiting` have
been read already. -/
partial def converse (debug : Bool) (t : Repl.Talk) (waiting : List Text.Line) :
    IO (List (List Text.Symbol)) := do
  let stdout ← IO.getStdout
  IO.print Repl.prompt
  stdout.flush
  let lines ← if waiting.isEmpty then
      (fun s => Text.Line.ofBytes s.toUTF8.toList) <$> (← IO.getStdin).getLine
    else pure waiting
  match lines with
  | [] =>
    IO.println ""
    return t.history
  | line :: waiting =>
    let reply := t.take (Text.Symbol.ofBytes line.bytes)
    stdout.write (bytesOf reply.out)
    showNotes debug reply.notes
    (← IO.getStderr).write (bytesOf reply.err)
    if reply.quits then return reply.talk.history
    converse debug reply.talk waiting

end SheetFormula.Main

open SheetFormula in
def main (words : List String) : IO UInt32 := do
  let (opening, options) := Repl.opening words
  match opening with
  | .done outcome =>
    (← IO.getStdout).write (Main.bytesOf outcome.out)
    Main.showNotes options.debug outcome.notes
    (← IO.getStderr).write (Main.bytesOf outcome.err)
    return outcome.code.toUInt32
  | .talk session =>
    IO.print Repl.banner
    let path ← Main.historyPath
    let history ← Main.converse options.debug ⟨session, ← Main.readHistory path⟩ []
    Main.writeHistory path history
    return 0
