/-!
Numerals as lists of characters: decimal, decimal with a sign always written, and lower-case
hexadecimal of a least width. Main statement: a byte written as two digits determines the byte.
-/
namespace EvmObject.Numeral

def decimal (n : Nat) : List Char :=
  Nat.toDigits 10 n

/-- Decimal with a sign in front, a plus for zero too. -/
def signed (i : Int) : List Char :=
  if i < 0 then '-' :: decimal i.natAbs else '+' :: decimal i.natAbs

/-- Lower-case hexadecimal, filled up with zeros to `width` digits. -/
def hex (width n : Nat) : List Char :=
  let digits := Nat.toDigits 16 n
  List.replicate (width - digits.length) '0' ++ digits

def digit (n : Nat) : Char :=
  if n < 10 then Char.ofNat (48 + n) else Char.ofNat (87 + n)

def byte (b : UInt8) : List Char :=
  [digit (b.toNat / 16), digit (b.toNat % 16)]

def byteText (b : UInt8) : String :=
  "0x" ++ String.ofList (byte b)

def bytes (bs : List UInt8) : List Char :=
  bs.flatMap byte

def digit? (c : Char) : Option Nat :=
  if '0' ≤ c ∧ c ≤ '9' then some (c.toNat - 48)
  else if 'a' ≤ c ∧ c ≤ 'f' then some (c.toNat - 87)
  else if 'A' ≤ c ∧ c ≤ 'F' then some (c.toNat - 55)
  else none

theorem digit?_digit (n : Nat) (h : n < 16) : digit? (digit n) = some n := by
  have all : ∀ k : Fin 16, digit? (digit k.val) = some k.val := by decide
  exact all ⟨n, h⟩

theorem digit_inj {m n : Nat} (hm : m < 16) (hn : n < 16) (h : digit m = digit n) : m = n := by
  have read := congrArg digit? h
  rw [digit?_digit m hm, digit?_digit n hn] at read
  exact Option.some.inj read

theorem byte_inj {a b : UInt8} (h : byte a = byte b) : a = b := by
  have ha := a.toNat_lt
  have hb := b.toNat_lt
  simp only [byte, List.cons.injEq, and_true] at h
  have high := digit_inj (by omega) (by omega) h.1
  have low := digit_inj (by omega) (by omega) h.2
  apply UInt8.toNat.inj
  omega

end EvmObject.Numeral
