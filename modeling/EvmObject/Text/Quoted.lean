import EvmObject.Text.Numeral
/-!
A character as it stands between single quotes in messages: the quote, the backslash and what cannot
be printed are escaped. For the first 256 code points.
-/
namespace EvmObject.Quoted

/-- Whether a code point below 256 has no glyph of its own. -/
def isHidden (n : Nat) : Bool :=
  n < 0x20 || (0x7F ≤ n && n ≤ 0xA0) || n == 0xAD

def codePoint (n : Nat) : List Char :=
  '\\' :: 'u' :: '\x7b' :: Numeral.hex 0 n ++ ['\x7d']

def escape (n : Nat) : List Char :=
  if n = 0 then ['\\', '0']
  else if n = 9 then ['\\', 't']
  else if n = 10 then ['\\', 'n']
  else if n = 13 then ['\\', 'r']
  else if n = 39 then ['\\', '\'']
  else if n = 92 then ['\\', '\\']
  else if isHidden n then codePoint n
  else [Char.ofNat n]

def char (n : Nat) : List Char :=
  '\'' :: escape n ++ ['\'']

end EvmObject.Quoted
