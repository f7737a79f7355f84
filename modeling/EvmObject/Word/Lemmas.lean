import EvmObject.BigEndian.Lemmas
import EvmObject.Word
/-!
Main statements: `toNat_ofBytes` gives the value of a word read from bytes, `ofBytes_toBytes` reads
a written word back.
-/
namespace EvmObject.Word

@[simp] theorem ofBytes_concat (bytes : List UInt8) (b : UInt8) :
    ofBytes (bytes ++ [b]) = ofBytes bytes * 256#256 + BitVec.ofNat 256 b.toNat := by
  simp [ofBytes, List.foldl_append]

theorem toNat_ofBytes (bytes : List UInt8) :
    (ofBytes bytes).toNat = BigEndian.value bytes % 2 ^ 256 := by
  rcases bytes.eq_nil_or_concat with rfl | ⟨front, b, rfl⟩
  · rfl
  · have shorter := toNat_ofBytes front
    have hb := b.toNat_lt
    rw [List.concat_eq_append, ofBytes_concat, BigEndian.value_concat, BitVec.toNat_add,
      BitVec.toNat_mul, shorter, BitVec.toNat_ofNat, BitVec.toNat_ofNat]
    simp only [Nat.mod_mul_mod, Nat.mod_add_mod, Nat.add_mod_mod, Nat.mul_mod_mod]
termination_by bytes.length

@[simp] theorem length_toBytes (w : Word) : w.toBytes.length = 32 :=
  BigEndian.length_digits 32 w.toNat

theorem ofBytes_toBytes (w : Word) : ofBytes w.toBytes = w := by
  apply BitVec.eq_of_toNat_eq
  rw [toNat_ofBytes, toBytes, BigEndian.value_digits]
  have := w.isLt
  simp only [Nat.reducePow]
  omega

end EvmObject.Word
