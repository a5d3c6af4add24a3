/-!
Lines as a reader with a bounded store takes them from bytes. A line ends with a line feed, and a
carriage return before that is dropped; the last line may lack its end. Where the store is full before
a line ends, what it holds is a piece of that line, and the reader goes on with the rest. The end of
the store may fall between the bytes of one character.
-/

set_option autoImplicit false

namespace SheetFormula.Text

/-- A line or, where it is not `whole`, the piece of a line that filled the store. -/
structure Line where
  bytes : List UInt8
  whole : Bool
deriving DecidableEq, Repr

namespace Line

/-- How many bytes the store holds, the line feed included. -/
def capacity : Nat := 4096

def lineFeed : UInt8 := 10

def carriageReturn : UInt8 := 13

/-- The bytes held so far, the last one first, and how many more there is room for. -/
structure Held where
  reversed : List UInt8 := []
  room : Nat := capacity
deriving DecidableEq, Repr

namespace Held

def add (h : Held) (b : UInt8) : Held :=
  ⟨b :: h.reversed, h.room - 1⟩

/-- What is held but for a carriage return at its end, and whether there is one. -/
def withoutReturn (h : Held) : List UInt8 × Bool :=
  match h.reversed with
  | [] => ([], false)
  | b :: rest => if b = carriageReturn then (rest.reverse, true) else (h.reversed.reverse, false)

/-- The line that a line feed ends. -/
def ended (h : Held) : Line :=
  ⟨h.withoutReturn.1, true⟩

/-- The piece in a full store and what stays in it: a carriage return waits for its line feed. -/
def spill (h : Held) : Line × Held :=
  let (bytes, waits) := h.withoutReturn
  (⟨bytes, false⟩, if waits then ({} : Held).add carriageReturn else {})

/-- The line at the end of the bytes, none if nothing is held. -/
def last (h : Held) : List Line :=
  if h.reversed = [] then [] else [⟨h.reversed.reverse, true⟩]

end Held

/-- The lines of some bytes, after what is already held. -/
def after (h : Held) : List UInt8 → List Line
  | [] =>
    if h.room = 0 then
      let (piece, rest) := h.spill
      piece :: rest.last
    else h.last
  | b :: bs =>
    if h.room = 0 then
      let (piece, rest) := h.spill
      if b = lineFeed then piece :: rest.ended :: after {} bs else piece :: after (rest.add b) bs
    else if b = lineFeed then h.ended :: after {} bs
    else after (h.add b) bs

/-- The lines and pieces of some bytes. -/
def ofBytes (bs : List UInt8) : List Line :=
  after {} bs

end Line

end SheetFormula.Text
