import EvmObject.Proofs.DefectOrder
import Mathlib.Algebra.Ring.Nat
/-!
Sweeping undoes writing instructions one after the other, and writing undoes sweeping. An instruction is decoded
wherever its opcode is defined and its operands fit, from the bytes of its encoding and from no others. Main
statement: `sweep_inverts_encoding`.
-/
namespace EvmObject

variable {code : Array UInt8} {start pc : Nat} {op : Opcode} {instr : Instruction}

theorem DelegatedOp.immediate_eq (op : DelegatedOp) : op.info.immediate = 0 := by
  cases op <;> rfl

theorem BinaryOp.immediate_eq (op : BinaryOp) : op.info.immediate = 0 := by
  cases op <;> rfl

theorem UnaryOp.immediate_eq (op : UnaryOp) : op.info.immediate = 0 := by
  cases op <;> rfl

/-- All operands of the opcode are there from `start` on: the fixed ones, and for a jump table as many entries as
its count byte tells. -/
structure Opcode.Fits (code : Array UInt8) (start : Nat) (op : Opcode) : Prop where
  fixed : start + op.info.immediate ≤ code.size
  table : op = .rjumpv → ∀ count, code[start]? = some count → start + 1 + 2 * count.toNat ≤ code.size

theorem Opcode.Fits.of_immediate (within : start ≤ code.size) (bare : op.info.immediate = 0) :
    op.Fits code start where
  fixed := by rwa [bare]
  table := by
    rintro rfl
    nomatch bare

theorem exists_word16At? : (∃ w, word16At? code start = some w) ↔ start + 2 ≤ code.size := by
  constructor
  · rintro ⟨w, found⟩
    have there := word16At?_eq_some.1 found
    have fits := there.length_le
    rw [List.length_drop, BigEndian.length_bytes16, Array.length_toList] at fits
    omega
  · intro fits
    have high := Array.getElem?_eq_getElem (show start < code.size by omega)
    have low := Array.getElem?_eq_getElem (show start + 1 < code.size by omega)
    exact ⟨_, by rw [word16At?, high, low]⟩

namespace Instruction

theorem exists_map_word16At? {f : UInt16 → Instruction} :
    (∃ instr, (word16At? code start).map f = some instr) ↔ start + 2 ≤ code.size := by
  rw [← exists_word16At?]
  cases word16At? code start <;> simp

theorem exists_readTable? : (∃ instr, readOperands? code start .rjumpv = some instr) ↔
    Opcode.rjumpv.Fits code start := by
  constructor
  · rintro ⟨instr, read⟩
    rw [readOperands?] at read
    cases found : code[start]? with
    | none => simp [found] at read
    | some count =>
      have inside := (Array.getElem?_eq_some_iff.1 found).1
      by_cases enough : start + 1 + 2 * count.toNat ≤ code.size
      · refine ⟨inside, fun _ other same => ?_⟩
        rw [found] at same
        exact Option.some.inj same ▸ enough
      · simp [found, enough] at read
  · intro fits
    have found := Array.getElem?_eq_getElem (show start < code.size from fits.fixed)
    rw [readOperands?, found]
    exact ⟨_, if_pos (fits.table rfl _ found)⟩

theorem exists_readOperands? (within : start ≤ code.size) :
    (∃ instr, readOperands? code start op = some instr) ↔ op.Fits code start := by
  cases op with
  | push size =>
    have fixed : (Opcode.push size).Fits code start ↔ start + size ≤ code.size :=
      ⟨Opcode.Fits.fixed, fun fits => ⟨fits, by rintro ⟨⟩⟩⟩
    rw [fixed, readOperands?]
    by_cases fits : start + size ≤ code.size <;> simp [fits]
  | rjump | rjumpi | callf =>
    rw [readOperands?, exists_map_word16At?]
    exact ⟨fun fits => ⟨fits, by rintro ⟨⟩⟩, Opcode.Fits.fixed⟩
  | rjumpv => exact exists_readTable?
  | binary op => exact iff_of_true ⟨_, rfl⟩ (.of_immediate within op.immediate_eq)
  | unary op => exact iff_of_true ⟨_, rfl⟩ (.of_immediate within op.immediate_eq)
  | delegated op => exact iff_of_true ⟨_, rfl⟩ (.of_immediate within op.immediate_eq)
  | finish how => exact iff_of_true ⟨_, rfl⟩ (.of_immediate within (by cases how <;> rfl))
  | _ => exact iff_of_true ⟨_, rfl⟩ (.of_immediate within rfl)

theorem exists_decode (inside : pc < code.size) : (∃ instr, decode code pc = .ok instr) ↔
    ∃ op, Opcode.ofByte? code[pc] = some op ∧ op.Fits code (pc + 1) := by
  have found := Array.getElem?_eq_getElem inside
  constructor
  · rintro ⟨instr, decoded⟩
    obtain ⟨byte, op, there, named, operands⟩ := decode_eq_ok.1 decoded
    rw [found] at there
    obtain rfl := Option.some.inj there
    exact ⟨op, named, (exists_readOperands? inside).1 ⟨instr, operands⟩⟩
  · rintro ⟨op, named, fits⟩
    obtain ⟨instr, operands⟩ := (exists_readOperands? inside).2 fits
    exact ⟨instr, decode_eq_ok.2 ⟨_, op, found, named, operands⟩⟩

theorem ofByte?_of_decode (inside : pc < code.size) (decoded : decode code pc = .ok instr) :
    Opcode.ofByte? code[pc] = some instr.opcode := by
  obtain ⟨byte, op, found, named, operands⟩ := decode_eq_ok.1 decoded
  rw [Array.getElem?_eq_getElem inside] at found
  rw [Option.some.inj found, named, ((readOperands?_iff inside).1 operands).1]

theorem decode_iff_extract : decode code pc = .ok instr ↔
    (code.extract pc (pc + instr.length)).toList = instr.encode := by
  rw [decode_iff, toList_extract, List.prefix_iff_eq_take, length_encode, eq_comm]

theorem decode_eq_error_iff (inside : pc < code.size) {e : DecodeError} : decode code pc = .error e ↔
    Opcode.ofByte? code[pc] = none ∧ e = .undefined code[pc] ∨
      ∃ op, Opcode.ofByte? code[pc] = some op ∧ ¬ op.Fits code (pc + 1) ∧ e = .truncated code[pc] := by
  have missed {op : Opcode} (named : Opcode.ofByte? code[pc] = some op) :
      (∀ instr, decode code pc ≠ .ok instr) ↔ ¬ op.Fits code (pc + 1) := by
    rw [← not_exists, exists_decode inside]
    simp [named]
  rw [decode_eq_error inside, Array.getElem?_eq_getElem inside]
  constructor
  · rintro ⟨byte, ⟨⟩, ⟨unnamed, rfl⟩ | ⟨op, named, short, rfl⟩⟩
    · exact .inl ⟨unnamed, rfl⟩
    · exact .inr ⟨op, named, (missed named).1 short, rfl⟩
  · rintro (⟨unnamed, rfl⟩ | ⟨op, named, short, rfl⟩)
    · exact ⟨_, rfl, .inl ⟨unnamed, rfl⟩⟩
    · exact ⟨_, rfl, .inr ⟨op, named, (missed named).2 short, rfl⟩⟩

end Instruction

namespace Sweep

theorem flatMap_encode_lines (code : Array UInt8) :
    ((ofCode code).lines.flatMap fun line => line.2.encode)
      = code.toList.take ((ofCode code).reach code.size) := by
  obtain ⟨instrs, shape, written⟩ := (tiles_reach code).written
  have lines : ((ofCode code).lines.flatMap fun line => line.2.encode)
      = instrs.flatMap Instruction.encode := by
    rw [← List.flatMap_map Prod.snd Instruction.encode, shape, Instruction.map_placed]
  have whole := List.take_append_drop ((ofCode code).reach code.size) code.toList
  rw [lines]
  exact List.append_cancel_right (written.symm.trans whole.symm)

/-- The sweep of instructions written one after the other meets just these and ends with the last of them. Of any
code, the lines of the sweep write the code again up to where the sweep sticks. At each place an instruction is
decoded just if the opcode is defined and its operands fit; then it is not empty, does not leave the code, and is
the one whose encoding stands there, wherever else this stands. Otherwise the opcode is undefined or its operands
are cut off. -/
theorem sweep_inverts_encoding :
    (∀ instrs : List Instruction, (ofCode (instrs.flatMap Instruction.encode).toArray).lines.map Prod.snd = instrs ∧
      (ofCode (instrs.flatMap Instruction.encode).toArray).lines = Instruction.placed 0 instrs ∧
      (ofCode (instrs.flatMap Instruction.encode).toArray).fault = none ∧
      (instrs.flatMap Instruction.encode).length = (instrs.map Instruction.length).sum) ∧
    (∀ code, ((ofCode code).lines.flatMap fun line => line.2.encode)
      = code.toList.take ((ofCode code).reach code.size)) ∧
    ∀ (code : Array UInt8) (pc : Nat) (inside : pc < code.size),
      ((∃ instr, Instruction.decode code pc = .ok instr) ↔
        ∃ op, Opcode.ofByte? code[pc] = some op ∧ op.Fits code (pc + 1)) ∧
      (∀ instr, Instruction.decode code pc = .ok instr →
        Opcode.ofByte? code[pc] = some instr.opcode ∧ 1 ≤ instr.length ∧ pc + instr.length ≤ code.size ∧
        (code.extract pc (pc + instr.length)).toList = instr.opcode.byte :: instr.operands ∧
        ∀ (other : Array UInt8) (place : Nat), other.extract place (place + instr.length)
          = code.extract pc (pc + instr.length) → Instruction.decode other place = .ok instr) ∧
      ∀ e, Instruction.decode code pc = .error e ↔
        Opcode.ofByte? code[pc] = none ∧ e = .undefined code[pc] ∨
          ∃ op, Opcode.ofByte? code[pc] = some op ∧ ¬ op.Fits code (pc + 1) ∧ e = .truncated code[pc] := by
  refine ⟨?_, flatMap_encode_lines, ?_⟩
  · intro instrs
    have swept : ofCode (instrs.flatMap Instruction.encode).toArray = ⟨Instruction.placed 0 instrs, none⟩ :=
      ofCode_written rfl
    rw [swept]
    refine ⟨Instruction.map_placed 0 instrs, rfl, rfl, ?_⟩
    rw [List.length_flatMap]
    congr 1
    exact List.map_congr_left fun instr _ => instr.length_encode
  · intro code pc inside
    refine ⟨Instruction.exists_decode inside, ?_, fun e => Instruction.decode_eq_error_iff inside⟩
    intro instr decoded
    have bytes := Instruction.decode_iff_extract.1 decoded
    refine ⟨Instruction.ofByte?_of_decode inside decoded, instr.length_pos,
      (Instruction.decode_bounds decoded).2, bytes, fun other place same => ?_⟩
    rw [Instruction.decode_iff_extract, same]
    exact bytes

/-- A push of two bytes, a call, and a table of two jumps. -/
def medley : List Instruction :=
  [.stack (.push ⟨[1, 2], by decide⟩), .callf 7, .rjumpv ⟨[1, -2], by decide⟩]

/-- The medley is swept as it is written, and its table is decoded at offset six. -/
theorem sweep_inverts_medley :
    (ofCode #[0x61, 1, 2, 0xB0, 0, 7, 0x5E, 2, 0, 1, 0xFF, 0xFE]).lines.map Prod.snd = medley ∧
      ∃ instr, Instruction.decode #[0x61, 1, 2, 0xB0, 0, 7, 0x5E, 2, 0, 1, 0xFF, 0xFE] 6 = .ok instr := by
  obtain ⟨swept, _, places⟩ := sweep_inverts_encoding
  have written : (medley.flatMap Instruction.encode).toArray
      = #[0x61, 1, 2, 0xB0, 0, 7, 0x5E, 2, 0, 1, 0xFF, 0xFE] := by decide
  have fits : Opcode.rjumpv.Fits #[0x61, 1, 2, 0xB0, 0, 7, 0x5E, 2, 0, 1, 0xFF, 0xFE] 7 :=
    ⟨by decide, by rintro _ count ⟨⟩; decide⟩
  exact ⟨written ▸ (swept medley).1, (places _ 6 (by decide)).1.2 ⟨.rjumpv, Opcode.ofByte?_byte .rjumpv, fits⟩⟩

end Sweep
end EvmObject
