/-!
Symbols: what a reader of bytes meets. Bytes that spell a character are that character. A byte that
belongs to none, such as a part of a character that was cut in two, is a symbol of its own.
-/

set_option autoImplicit false

namespace SheetFormula.Text

/-- A character, or a byte that belongs to no character. -/
inductive Symbol where
  | char (c : Char)
  | byte (b : UInt8)
deriving DecidableEq, Repr

namespace Symbol

/-- The symbols of a text without bytes of their own. -/
def ofString (s : String) : List Symbol :=
  s.toList.map .char

/-- The symbols of bytes from an index on. -/
def decodeFrom (bytes : ByteArray) (i : Nat) : List Symbol :=
  if h : i < bytes.size then
    match bytes.utf8DecodeChar? i with
    | some c => .char c :: decodeFrom bytes (i + c.utf8Size)
    | none => .byte bytes[i] :: decodeFrom bytes (i + 1)
  else []
termination_by bytes.size - i
decreasing_by
  · have := c.utf8Size_pos
    omega
  · omega

/-- The symbols that bytes spell. -/
def ofBytes (bs : List UInt8) : List Symbol :=
  decodeFrom bs.toByteArray 0

/-- The bytes that spell a symbol. -/
def toBytes : Symbol → List UInt8
  | .char c => String.utf8EncodeChar c
  | .byte b => [b]

def isChar : Symbol → Bool
  | .char _ => true
  | .byte _ => false

/-- The character that shows a symbol; a byte shows as the replacement character. -/
def shown : Symbol → Char
  | .char c => c
  | .byte _ => '\ufffd'

/-- The text that shows some symbols. -/
def toText (ss : List Symbol) : String :=
  String.ofList (ss.map shown)

end Symbol

end SheetFormula.Text
