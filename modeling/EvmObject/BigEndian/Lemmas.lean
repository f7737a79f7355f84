import EvmObject.BigEndian
import Mathlib.Algebra.Group.Nat.Defs
/-!
The number of bytes in a row is that of the parts (`value_append`), and digits are those of the number that
they write (`value_digits`).
-/
namespace EvmObject.BigEndian

@[simp] theorem value_nil : value [] = 0 := rfl

@[simp] theorem value_concat (bytes : List UInt8) (b : UInt8) :
    value (bytes ++ [b]) = value bytes * 256 + b.toNat := by
  simp [value, List.foldl_append]

theorem value_append (front bytes : List UInt8) :
    value (front ++ bytes) = value front * 256 ^ bytes.length + value bytes := by
  rcases bytes.eq_nil_or_concat with rfl | ⟨init, b, rfl⟩
  · simp
  · have shorter := value_append front init
    rw [List.concat_eq_append, ← List.append_assoc, value_concat, shorter, value_concat,
      List.length_append, List.length_singleton, Nat.pow_succ, Nat.add_mul, Nat.mul_assoc, Nat.add_assoc]
termination_by bytes.length

theorem value_cons (b : UInt8) (bytes : List UInt8) :
    value (b :: bytes) = b.toNat * 256 ^ bytes.length + value bytes := by
  have single : value [b] = b.toNat := Nat.zero_add _
  rw [← List.singleton_append, value_append, single]

theorem value_lt (bytes : List UInt8) : value bytes < 256 ^ bytes.length := by
  induction bytes with
  | nil => exact Nat.one_pos
  | cons b bytes ih =>
    have := b.toNat_lt
    rw [value_cons, List.length_cons, Nat.pow_succ, Nat.mul_comm (256 ^ bytes.length)]
    have bound : b.toNat * 256 ^ bytes.length ≤ 255 * 256 ^ bytes.length := Nat.mul_le_mul_right _ (by omega)
    omega

@[simp] theorem length_digits (width n : Nat) : (digits width n).length = width := by
  induction width generalizing n with
  | zero => rfl
  | succ width ih => simp [digits, ih]

theorem value_digits (width n : Nat) : value (digits width n) = n % 256 ^ width := by
  induction width generalizing n with
  | zero => simp [digits, Nat.mod_one]
  | succ width ih =>
    rw [digits, value_concat, ih, Nat.pow_succ, Nat.mul_comm (256 ^ width), Nat.mod_mul]
    simp only [UInt8.toNat_ofNat', Nat.reducePow]
    omega

end EvmObject.BigEndian
