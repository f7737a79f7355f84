import EvmObject.Text.Blank
import EvmObject.Text.Quoted
/-!
Bytes written as hexadecimal text: two digits a byte, of either case, with blanks anywhere and at
most one mark `0x` in front.
-/
namespace EvmObject

inductive HexError where
  /-- The bytes of the text that count are odd in number. -/
  | oddLength
  /-- The first byte that is no digit, and its position among those that count. -/
  | invalidDigit (byte : UInt8) (position : Nat)
deriving DecidableEq, Repr

namespace HexError

def message : HexError → String
  | oddLength => "Odd number of digits"
  | invalidDigit byte position =>
    s!"Invalid character {String.ofList (Quoted.char byte.toNat)} at position {position}"

end HexError

namespace Hex

def unmarked : List Char → List Char
  | '0' :: 'x' :: rest => rest
  | '0' :: 'X' :: rest => rest
  | text => text

def digit? (b : UInt8) : Option Nat :=
  Numeral.digit? (Char.ofNat b.toNat)

/-- Reads pairs of digits; the first of them is at `position`, and `read` holds the bytes before it,
the last first. -/
def pairs (position : Nat) (read : List UInt8) : List UInt8 → Except HexError (List UInt8)
  | hi :: lo :: rest =>
    match digit? hi, digit? lo with
    | some h, some l => pairs (position + 2) (UInt8.ofNat (16 * h + l) :: read) rest
    | none, _ => .error (.invalidDigit hi position)
    | some _, none => .error (.invalidDigit lo (position + 1))
  | _ => .ok read.reverse

/-- The bytes of the text that count: its UTF-8 form without blanks and mark. -/
def significant (text : List Char) : List UInt8 :=
  (unmarked (text.filter fun c => !isBlank c)).flatMap String.utf8EncodeChar

def decode (text : List Char) : Except HexError (List UInt8) :=
  let digits := significant text
  if digits.length % 2 = 0 then pairs 0 [] digits else .error .oddLength

end Hex
end EvmObject
