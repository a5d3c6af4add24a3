import SheetFormula.Text.Quoted
import SheetFormula.Text.Symbol

/-!
Characters on loan. Formulas are read from texts of characters, and a line may have bytes that belong
to no character. Each such byte is lent a character that the line does not have, one of the 131072
private characters of the last two planes. A formula tells no two private characters apart by their
class: they are no letters, no numbers and no blanks, as the bytes are not. So the line is read as with
the bytes themselves, and the lent characters in the answer lead back to them (`Loan.byte?_lend`).
-/

set_option autoImplicit false

namespace SheetFormula.Text

/-- A block of 128 private characters to lend, one for each byte that can stand alone. -/
structure Loan where
  block : Fin 1024
deriving DecidableEq, Repr

namespace Loan

/-- The code of the first character of the block. -/
def first (l : Loan) : Nat :=
  0xf0000 + 128 * l.block.val

/-- The character that a byte is lent. -/
def lend (l : Loan) (b : UInt8) : Char :=
  Char.ofNat (l.first + b.toNat % 128)

/-- The byte to which a character is lent. -/
def byte? (l : Loan) (c : Char) : Option UInt8 :=
  if l.first ≤ c.toNat ∧ c.toNat < l.first + 128 then some (UInt8.ofNat (c.toNat - l.first + 128))
  else none

/-- A lent character leads back to its byte. -/
theorem byte?_lend (l : Loan) (b : UInt8) (h : 128 ≤ b.toNat) : l.byte? (l.lend b) = some b := by
  have hb := b.toNat_lt
  have hl := l.block.isLt
  have hc : (l.lend b).toNat = l.first + b.toNat % 128 := by
    have hv : (l.first + b.toNat % 128).isValidChar := by
      unfold first
      exact Or.inr ⟨by omega, by omega⟩
    rw [lend, Char.ofNat, dif_pos hv]
    rfl
  have he : b.toNat % 128 + 128 = b.toNat := by omega
  simp only [byte?, hc, Nat.add_sub_cancel_left, he, UInt8.ofNat_toNat, ite_eq_left_iff]
  omega

/-- A block of which some symbols have no character. One is left as long as the symbols with a byte
among them take up 4096 bytes at most, since every private character takes four. -/
def apartFrom (ss : List Symbol) : Loan :=
  let isFree (l : Loan) := ss.all fun
    | .char c => (l.byte? c).isNone
    | .byte _ => true
  (((List.finRange 1024).map Loan.mk).find? isFree).getD ⟨0⟩

/-- The characters that stand for symbols. -/
def chars (l : Loan) (ss : List Symbol) : List Char :=
  ss.map fun
    | .char c => c
    | .byte b => l.lend b

/-- The symbols for which characters stand. -/
def symbols (l : Loan) (s : String) : List Symbol :=
  s.toList.map fun c => match l.byte? c with
    | some b => .byte b
    | none => .char c

/-- Quoted text in which a byte that belongs to no character is shown by its code. -/
def quoted (l : Loan) (s : String) : String :=
  quotedBy (fun c => match l.byte? c with
    | some b => "\\x" ++ hex 2 b.toNat
    | none => escapeChar c) s

end Loan

end SheetFormula.Text
