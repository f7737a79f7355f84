/-!
The characters with the Unicode property White_Space.
-/
namespace EvmObject

/-- The first and the last of each run of code points with the property. -/
def blankRanges : List (Nat × Nat) :=
  [(0x0009, 0x000D), (0x0020, 0x0020), (0x0085, 0x0085), (0x00A0, 0x00A0), (0x1680, 0x1680),
    (0x2000, 0x200A), (0x2028, 0x2029), (0x202F, 0x202F), (0x205F, 0x205F), (0x3000, 0x3000)]

def isBlank (c : Char) : Bool :=
  blankRanges.any fun r => r.1 ≤ c.toNat && c.toNat ≤ r.2

example : blankRanges.foldl (fun n r => n + (r.2 - r.1 + 1)) 0 = 25 := by decide

end EvmObject
