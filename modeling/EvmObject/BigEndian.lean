/-!
Numbers written in base 256, most significant byte first. Main statements: `word16_bytes16` and
`bytes16_word16`, so that pairs of bytes and 16-bit numbers are the same thing.
-/
namespace EvmObject.BigEndian

def value (bytes : List UInt8) : Nat :=
  bytes.foldl (fun n b => n * 256 + b.toNat) 0

/-- The lowest `width` base-256 digits of `n`. -/
def digits : Nat → Nat → List UInt8
  | 0, _ => []
  | width + 1, n => digits width (n / 256) ++ [UInt8.ofNat n]

def word16 (hi lo : UInt8) : UInt16 :=
  UInt16.ofNat (hi.toNat * 256 + lo.toNat)

def bytes16 (n : UInt16) : List UInt8 :=
  [UInt8.ofNat (n.toNat / 256), UInt8.ofNat n.toNat]

@[simp] theorem length_bytes16 (n : UInt16) : (bytes16 n).length = 2 := rfl

theorem length_flatMap_bytes16 {α : Type} (f : α → UInt16) (xs : List α) :
    (xs.flatMap fun x => bytes16 (f x)).length = 2 * xs.length := by
  induction xs with
  | nil => rfl
  | cons x rest ih =>
    rw [List.flatMap_cons, List.length_append, ih, length_bytes16, List.length_cons]
    omega

theorem word16_bytes16 (n : UInt16) :
    word16 (UInt8.ofNat (n.toNat / 256)) (UInt8.ofNat n.toNat) = n := by
  apply UInt16.toNat.inj
  have := n.toNat_lt
  simp only [word16, UInt8.toNat_ofNat', UInt16.toNat_ofNat', Nat.reducePow]
  omega

theorem toNat_word16 (hi lo : UInt8) : (word16 hi lo).toNat = hi.toNat * 256 + lo.toNat := by
  have h := hi.toNat_lt
  have l := lo.toNat_lt
  simp only [word16, UInt16.toNat_ofNat', Nat.reducePow]
  omega

theorem bytes16_word16 (hi lo : UInt8) : bytes16 (word16 hi lo) = [hi, lo] := by
  have h := hi.toNat_lt
  have l := lo.toNat_lt
  have sum := toNat_word16 hi lo
  have high : UInt8.ofNat ((word16 hi lo).toNat / 256) = hi := by
    apply UInt8.toNat.inj
    rw [sum]
    simp only [UInt8.toNat_ofNat', Nat.reducePow]
    omega
  have low : UInt8.ofNat (word16 hi lo).toNat = lo := by
    apply UInt8.toNat.inj
    rw [sum]
    simp only [UInt8.toNat_ofNat', Nat.reducePow]
    omega
  rw [bytes16, high, low]

theorem bytes16_inj {m n : UInt16} (same : bytes16 m = bytes16 n) : m = n := by
  obtain ⟨high, low⟩ := List.cons.inj same
  rw [← word16_bytes16 m, ← word16_bytes16 n, high, (List.cons.inj low).1]

end EvmObject.BigEndian
