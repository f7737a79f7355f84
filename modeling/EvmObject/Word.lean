import EvmObject.BigEndian
import EvmObject.Text.Numeral
/-!
The 256-bit words of the data stack: their bytes and their text. Arithmetic is that of `BitVec`,
which wraps.
-/
namespace EvmObject

abbrev Word := BitVec 256

namespace Word

/-- The big-endian number of the bytes, modulo 2^256: only the last 32 bytes count. -/
def ofBytes (bytes : List UInt8) : Word :=
  bytes.foldl (fun w b => w * 256#256 + BitVec.ofNat 256 b.toNat) 0

def toBytes (w : Word) : List UInt8 :=
  BigEndian.digits 32 w.toNat

def ofBool (b : Bool) : Word :=
  if b then 1 else 0

def toUInt64? (w : Word) : Option UInt64 :=
  if w.toNat < UInt64.size then some (UInt64.ofNat w.toNat) else none

/-- Drops leading zero bytes, but not a last byte. -/
def significant : List UInt8 → List UInt8
  | b :: c :: rest => if b = 0 then significant (c :: rest) else b :: c :: rest
  | rest => rest

/-- Hexadecimal with `0x` in front, whole bytes, no leading zero byte; zero is `0x00`. -/
def text (w : Word) : List Char :=
  '0' :: 'x' :: Numeral.bytes (significant w.toBytes)

end Word
end EvmObject
