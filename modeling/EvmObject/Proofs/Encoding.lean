import EvmObject.Instruction
import Mathlib.Data.List.Basic
/-!
Decoding undoes encoding. Main statement: an instruction is decoded just where its encoding stands
(`decode_iff`), whatever surrounds it.
-/
namespace EvmObject

variable {code : Array UInt8} {start pc : Nat} {op : Opcode} {instr : Instruction}

theorem cons_prefix_drop {α : Type} {x : α} {xs l : List α} {i : Nat} :
    x :: xs <+: l.drop i ↔ l[i]? = some x ∧ xs <+: l.drop (i + 1) := by
  by_cases inside : i < l.length
  · rw [List.drop_eq_getElem_cons inside, List.cons_prefix_cons, List.getElem?_eq_getElem inside,
      Option.some_inj, eq_comm]
  · have past := Nat.le_of_not_lt inside
    simp [List.drop_eq_nil_of_le past, List.getElem?_eq_none past]

theorem toList_extract (code : Array UInt8) (start n : Nat) :
    (code.extract start (start + n)).toList = (code.toList.drop start).take n := by
  simp [List.extract]

theorem size_of_prefix {bytes : List UInt8} (within : start ≤ code.size)
    (there : bytes <+: code.toList.drop start) : start + bytes.length ≤ code.size := by
  have fits := there.length_le
  have size : code.toList.length = code.size := Array.length_toList
  rw [List.length_drop] at fits
  omega

theorem word16At?_eq_some {i : Nat} {w : UInt16} :
    word16At? code i = some w ↔ BigEndian.bytes16 w <+: code.toList.drop i := by
  constructor
  · intro h
    unfold word16At? at h
    split at h
    · rename_i hi lo high low
      cases h
      rw [BigEndian.bytes16_word16, cons_prefix_drop, cons_prefix_drop]
      exact ⟨by simpa using high, by simpa using low, List.nil_prefix⟩
    · nomatch h
  · intro there
    rw [BigEndian.bytes16, cons_prefix_drop, cons_prefix_drop] at there
    obtain ⟨high, low, _⟩ := there
    rw [Array.getElem?_toList] at high low
    simp only [word16At?, high, low, BigEndian.word16_bytes16]

namespace JumpTable

theorem pairs_encode (offsets : List Int16) :
    pairs (offsets.flatMap fun offset => BigEndian.bytes16 offset.toUInt16) = offsets := by
  induction offsets with
  | nil => rfl
  | cons offset rest ih =>
    rw [List.flatMap_cons, BigEndian.bytes16, List.cons_append, List.cons_append, List.nil_append,
      pairs, ih, BigEndian.word16_bytes16, Int16.toInt16_toUInt16]

theorem encode_pairs : (bytes : List UInt8) → bytes.length % 2 = 0 →
    (pairs bytes).flatMap (fun offset => BigEndian.bytes16 offset.toUInt16) = bytes
  | [], _ => rfl
  | [_], odd => nomatch odd
  | hi :: lo :: rest, even => by
    have shorter := encode_pairs rest (by simp only [List.length_cons] at even; omega)
    rw [pairs, List.flatMap_cons, shorter, UInt16.toUInt16_toInt16, BigEndian.bytes16_word16]
    rfl

theorem offsets_read (code : Array UInt8) (start : Nat) (count : UInt8) :
    (read code start count).offsets = pairs ((code.toList.drop start).take (2 * count.toNat)) :=
  congrArg pairs (toList_extract code start _)

theorem read_eq {count : UInt8} {table : JumpTable}
    (enough : start + 2 * count.toNat ≤ code.size) :
    read code start count = table ↔
      table.offsets.length = count.toNat ∧ table.encode <+: code.toList.drop start := by
  have size : code.toList.length = code.size := Array.length_toList
  constructor
  · rintro rfl
    have long : ((code.toList.drop start).take (2 * count.toNat)).length = 2 * count.toNat := by
      simp
      omega
    rw [encode, offsets_read, length_pairs, encode_pairs _ (by omega), long]
    exact ⟨by omega, List.take_prefix _ _⟩
  · rintro ⟨counted, there⟩
    rw [List.prefix_iff_eq_take, length_encode, counted] at there
    have same : (read code start count).offsets = table.offsets := by
      rw [offsets_read, ← there, encode, pairs_encode]
    cases table
    cases same
    rfl

end JumpTable

theorem PushData.read_eq {size : Fin 33} {data : PushData} (enough : start + size ≤ code.size) :
    read code start size = data ↔
      data.bytes.length = size ∧ data.bytes <+: code.toList.drop start := by
  have total : code.toList.length = code.size := Array.length_toList
  constructor
  · rintro rfl
    have bytes : (read code start size).bytes = (code.toList.drop start).take size :=
      toList_extract code start size
    rw [bytes]
    exact ⟨by simp; omega, List.take_prefix _ _⟩
  · rintro ⟨counted, there⟩
    rw [List.prefix_iff_eq_take, counted, ← toList_extract] at there
    cases data
    cases there
    rfl

namespace Instruction

theorem readOperands?_iff (within : start ≤ code.size) :
    readOperands? code start op = some instr ↔
      instr.opcode = op ∧ instr.operands <+: code.toList.drop start := by
  constructor
  · intro h
    cases op with
    | push size =>
      simp only [readOperands?] at h
      split at h
      · rename_i fits
        cases h
        obtain ⟨counted, there⟩ := (PushData.read_eq fits).1 rfl
        exact ⟨by simp [opcode, StackOp.opcode, counted], there⟩
      · cases h
    | rjump | rjumpi | callf =>
      obtain ⟨w, found, rfl⟩ := Option.map_eq_some_iff.1 h
      exact ⟨rfl, word16At?_eq_some.1 found⟩
    | rjumpv =>
      simp only [readOperands?] at h
      split at h
      · rename_i count found
        split at h
        · rename_i fits
          cases h
          obtain ⟨counted, there⟩ := (JumpTable.read_eq fits).1 rfl
          refine ⟨rfl, cons_prefix_drop.2 ⟨?_, there⟩⟩
          simpa [counted] using found
        · cases h
      · cases h
    | _ =>
      cases h
      exact ⟨rfl, List.nil_prefix⟩
  · rintro ⟨rfl, there⟩
    cases instr with
    | stack op =>
      cases op with
      | push data =>
        have fits : start + data.bytes.length ≤ code.size := size_of_prefix within there
        simp only [opcode, StackOp.opcode, readOperands?, if_pos fits]
        rw [(PushData.read_eq fits).2 ⟨rfl, there⟩]
      | _ => rfl
    | rjump offset | rjumpi offset =>
      simp only [opcode, readOperands?, word16At?_eq_some.2 there, Option.map_some,
        Int16.toInt16_toUInt16]
    | callf target => simp only [opcode, readOperands?, word16At?_eq_some.2 there, Option.map_some]
    | rjumpv table =>
      obtain ⟨found, entries⟩ := cons_prefix_drop.1 there
      rw [Array.getElem?_toList] at found
      have counted : table.offsets.length = (UInt8.ofNat table.offsets.length).toNat := by
        have := table.length_le
        simp only [UInt8.toNat_ofNat', Nat.reducePow]
        omega
      have inside := (Array.getElem?_eq_some_iff.1 found).1
      have fits := size_of_prefix inside entries
      rw [JumpTable.length_encode, counted] at fits
      simp only [opcode, readOperands?, found, if_pos fits]
      rw [(JumpTable.read_eq fits).2 ⟨counted, entries⟩]
    | _ => rfl

theorem decode_iff : decode code pc = .ok instr ↔ instr.encode <+: code.toList.drop pc := by
  rw [decode_eq_ok, encode, cons_prefix_drop, Array.getElem?_toList]
  constructor
  · rintro ⟨byte, op, found, names, operands⟩
    have inside := (Array.getElem?_eq_some_iff.1 found).1
    obtain ⟨rfl, there⟩ := (readOperands?_iff inside).1 operands
    exact ⟨Opcode.byte_of_ofByte? names ▸ found, there⟩
  · rintro ⟨found, there⟩
    have inside := (Array.getElem?_eq_some_iff.1 found).1
    exact ⟨_, _, found, Opcode.ofByte?_byte _, (readOperands?_iff inside).2 ⟨rfl, there⟩⟩

theorem decode_bounds (h : decode code pc = .ok instr) :
    pc < code.size ∧ pc + instr.length ≤ code.size := by
  have there := decode_iff.1 h
  have first := (cons_prefix_drop.1 there).1
  rw [Array.getElem?_toList] at first
  have inside := (Array.getElem?_eq_some_iff.1 first).1
  have fits := size_of_prefix (Nat.le_of_lt inside) there
  rw [length_encode] at fits
  exact ⟨inside, fits⟩

end Instruction
end EvmObject
