import EvmObject.Proofs.HexWriting
import EvmObject.Text.Numeral.Lemmas
import EvmObject.Word.Lemmas
/-!
Words keep their value through bytes and through text. Bytes of any count are read as their number modulo 2^256,
which is that of the last 32; a text has whole bytes of lower-case digits and no zero byte in front but for zero.
Main statement: `value_kept`.
-/
namespace EvmObject

theorem Hex.spells_bytes (bytes : List UInt8) : Spells (Numeral.bytes bytes) bytes := by
  induction bytes with
  | nil => exact .nil
  | cons b bytes ih =>
    have := b.toNat_lt
    exact .cons ⟨by omega, .inl rfl⟩ ⟨by omega, .inl rfl⟩ ih

theorem Hex.spaced_self (chars : List Char) : Spaced chars chars := by
  induction chars with
  | nil => exact .nil
  | cons c chars ih => exact .keep ih

theorem Hex.writes_marked {digits : List Char} {bytes : List UInt8} (h : Spells digits bytes) :
    Writes ('0' :: 'x' :: digits) bytes :=
  ⟨['0', 'x'], digits, .inr (.inl rfl), h, spaced_self _⟩

def Numeral.IsLower (c : Char) : Prop :=
  ('0' ≤ c ∧ c ≤ '9') ∨ ('a' ≤ c ∧ c ≤ 'f')

instance (c : Char) : Decidable (Numeral.IsLower c) :=
  inferInstanceAs (Decidable (_ ∨ _))

theorem Numeral.isLower_of_mem_bytes {bytes : List UInt8} {c : Char} (h : c ∈ Numeral.bytes bytes) :
    IsLower c := by
  have all : ∀ k : Fin 16, IsLower (digit k.val) := by decide
  obtain ⟨b, _, written⟩ := List.mem_flatMap.1 h
  have := b.toNat_lt
  obtain rfl | rfl : c = digit (b.toNat / 16) ∨ c = digit (b.toNat % 16) := by simpa [byte] using written
  · exact all ⟨b.toNat / 16, by omega⟩
  · exact all ⟨b.toNat % 16, by omega⟩

namespace Word

variable {v w : Word} {bytes : List UInt8} {n : Nat}

/-! ### Reading bytes -/

def ofNat? (n : Nat) : Option Word :=
  if n < 2 ^ 256 then some (BitVec.ofNat 256 n) else none

/-- The number of the last 32 bytes, or of all if they are fewer; zero if it were too large for a word. -/
def ofLast (bytes : List UInt8) : Word :=
  (ofNat? (BigEndian.value (bytes.drop (bytes.length - 32)))).getD 0#256

theorem pow_256_32 : 256 ^ 32 = 2 ^ 256 := by decide

theorem ofLast_toNat (bytes : List UInt8) :
    (ofLast bytes).toNat = BigEndian.value (bytes.drop (bytes.length - 32)) := by
  have le : (bytes.drop (bytes.length - 32)).length ≤ 32 := by
    rw [List.length_drop]
    omega
  have fits : BigEndian.value (bytes.drop (bytes.length - 32)) < 2 ^ 256 :=
    calc
      _ < 256 ^ (bytes.drop (bytes.length - 32)).length := BigEndian.value_lt _
      _ ≤ 256 ^ 32 := Nat.pow_le_pow_right (by decide) le
      _ = 2 ^ 256 := pow_256_32
  rw [ofLast, ofNat?, if_pos fits, Option.getD_some, BitVec.toNat_ofNat, Nat.mod_eq_of_lt fits]

theorem value_last (bytes : List UInt8) :
    BigEndian.value (bytes.drop (bytes.length - 32)) = BigEndian.value bytes % 2 ^ 256 := by
  have whole := BigEndian.value_append (bytes.take (bytes.length - 32)) (bytes.drop (bytes.length - 32))
  rw [List.take_append_drop] at whole
  by_cases long : 32 ≤ bytes.length
  · have last : (bytes.drop (bytes.length - 32)).length = 32 := by
      rw [List.length_drop]
      omega
    have fits := BigEndian.value_lt (bytes.drop (bytes.length - 32))
    rw [last, pow_256_32] at whole fits
    rw [whole, Nat.mul_add_mod_of_lt fits]
  · have all : bytes.length - 32 = 0 := by omega
    have fits := BigEndian.value_lt bytes
    have le : 256 ^ bytes.length ≤ 256 ^ 32 := Nat.pow_le_pow_right (by decide) (by omega)
    rw [pow_256_32] at le
    rw [all, List.drop_zero, Nat.mod_eq_of_lt (Nat.lt_of_lt_of_le fits le)]

theorem ofBytes_eq_ofLast (bytes : List UInt8) : ofBytes bytes = ofLast bytes := by
  apply BitVec.eq_of_toNat_eq
  rw [toNat_ofBytes, ofLast_toNat, value_last]

/-! ### Text -/

theorem ofBytes_cons_zero (bytes : List UInt8) : ofBytes (0 :: bytes) = ofBytes bytes := rfl

theorem ofBytes_significant (bytes : List UInt8) : ofBytes (significant bytes) = ofBytes bytes := by
  fun_induction significant bytes with
  | case1 c rest ih =>
    rw [ih, ofBytes_cons_zero]
  | case2 b c rest nonzero => rfl
  | case3 rest short => rfl

theorem significant_shape (some : bytes ≠ []) :
    significant bytes = [0] ∨ ∃ b rest, b ≠ 0 ∧ significant bytes = b :: rest := by
  fun_induction significant bytes with
  | case1 c rest ih => exact ih (List.cons_ne_nil c rest)
  | case2 b c rest nonzero => exact .inr ⟨b, c :: rest, nonzero, rfl⟩
  | case3 bytes short =>
    obtain _ | ⟨b, _ | ⟨c, rest⟩⟩ := bytes
    · exact absurd rfl some
    · by_cases zero : b = 0
      · exact .inl (by rw [zero])
      · exact .inr ⟨b, [], zero, rfl⟩
    · exact (short b c rest rfl).elim

theorem significant_eq_drop (bytes : List UInt8) :
    significant bytes = bytes.drop ((bytes.findIdx? (· != 0)).getD (bytes.length - 1)) := by
  fun_induction significant bytes with
  | case1 c rest ih =>
    rw [ih, List.findIdx?_cons (x := 0)]
    cases (c :: rest).findIdx? (· != 0) with
    | none => rfl
    | some i => rfl
  | case2 b c rest nonzero =>
    rw [List.findIdx?_cons, if_pos (bne_iff_ne.2 nonzero)]
    rfl
  | case3 bytes short =>
    obtain _ | ⟨b, _ | ⟨c, rest⟩⟩ := bytes
    · rfl
    · rw [List.findIdx?_cons]
      split
      · rfl
      · rfl
    · exact (short b c rest rfl).elim

theorem significant_toBytes (w : Word) :
    ofBytes (significant w.toBytes) = w ∧
      if w = 0#256 then significant w.toBytes = [0]
      else ∃ b rest, b ≠ 0 ∧ significant w.toBytes = b :: rest := by
  have same : ofBytes (significant w.toBytes) = w := by rw [ofBytes_significant, ofBytes_toBytes]
  refine ⟨same, ?_⟩
  have some : w.toBytes ≠ [] := List.ne_nil_of_length_eq_add_one (length_toBytes w)
  split
  · rename_i zero
    rw [zero]
    rfl
  · rename_i nonzero
    refine (significant_shape some).resolve_left fun single => nonzero ?_
    rw [← same, single]
    rfl

theorem decode_text (w : Word) : Hex.decode w.text = .ok (significant w.toBytes) := by
  rw [Hex.decode_eq_ok, text]
  exact Hex.writes_marked (Hex.spells_bytes _)

theorem text_inj (same : v.text = w.text) : v = w := by
  have digits := Numeral.bytes_inj (List.cons.inj (List.cons.inj same).2).2
  rw [← (significant_toBytes v).1, ← (significant_toBytes w).1, digits]

/-- Bytes of any count are read as the number of the last 32, which is the number of all modulo 2^256. The 32 bytes
of a word are read as that word. Its text is the mark and the digits of its bytes from the first that is not zero on,
or of the last alone: lower-case digits, two for each byte, which are read as bytes of that word. Zero has one byte,
and all other words start with one that is not zero. Distinct words have distinct texts. -/
theorem value_kept :
    (∀ bytes, ofBytes bytes = ofLast bytes ∧ (ofBytes bytes).toNat = BigEndian.value bytes % 2 ^ 256) ∧
    (∀ w : Word, w.toBytes.length = 32 ∧ ofBytes w.toBytes = w) ∧
    (∀ w : Word, ∃ digits bytes,
      bytes = w.toBytes.drop ((w.toBytes.findIdx? (· != 0)).getD 31) ∧
      w.text = '0' :: 'x' :: digits ∧ (∀ c ∈ digits, Numeral.IsLower c) ∧
      digits.length = 2 * bytes.length ∧ Hex.Spells digits bytes ∧ Hex.decode w.text = .ok bytes ∧
      ofBytes bytes = w ∧
      if w = 0#256 then bytes = [0] else ∃ b rest, b ≠ 0 ∧ bytes = b :: rest) ∧
    ∀ v w : Word, v.text = w.text ↔ v = w := by
  refine ⟨fun bytes => ⟨ofBytes_eq_ofLast bytes, toNat_ofBytes bytes⟩,
    fun w => ⟨length_toBytes w, ofBytes_toBytes w⟩, fun w => ?_, fun v w => ⟨text_inj, congrArg text⟩⟩
  have bytes := significant_eq_drop w.toBytes
  rw [length_toBytes] at bytes
  have spelled := Hex.spells_bytes (significant w.toBytes)
  obtain ⟨same, shape⟩ := significant_toBytes w
  exact ⟨Numeral.bytes (significant w.toBytes), _, bytes, rfl, fun _ => Numeral.isLower_of_mem_bytes,
    spelled.length_eq, spelled, decode_text w, same, shape⟩

end Word
end EvmObject
