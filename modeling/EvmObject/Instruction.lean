import EvmObject.BigEndian
import EvmObject.Opcode
/-!
Instructions: opcodes with their operands. `encode` writes one, `decode` reads the one at an offset
of a code section. Main statement: an instruction is as long as its encoding, and never empty.
-/
namespace EvmObject

structure PushData where
  bytes : List UInt8
  length_le : bytes.length ≤ 32
deriving DecidableEq

/-- The operand of a table jump: as many relative offsets as one count byte can tell. -/
structure JumpTable where
  offsets : List Int16
  length_le : offsets.length ≤ 255
deriving DecidableEq

/-- Instructions that move words on the data stack and nothing else. -/
inductive StackOp where
  | binary (op : BinaryOp)
  | unary (op : UnaryOp)
  | pop | nop
  | push (data : PushData)
  /-- Copies the item `depth + 1` places from the top, the top itself being at one. -/
  | dup (depth : Fin 16)
  /-- Exchanges the top with the item `depth + 1` places below it. -/
  | swap (depth : Fin 16)
deriving DecidableEq

inductive Instruction where
  | stack (op : StackOp)
  | rjump (offset : Int16)
  | rjumpi (offset : Int16)
  | rjumpv (table : JumpTable)
  | callf (target : UInt16)
  | retf
  | stop
  | finish (exit : Exit)
  | invalid
  | delegated (op : DelegatedOp)
deriving DecidableEq

inductive DecodeError where
  | undefined (byte : UInt8)
  /-- The operands run past the end; past the end itself the byte is that of a stop. -/
  | truncated (byte : UInt8)
deriving DecidableEq, Repr

/-- The position that a relative offset leads to from `next`, if it is not before the start. -/
def relativeTarget (next : Nat) (offset : Int16) : Option Nat :=
  if (next : Int) + offset.toInt < 0 then none else some ((next : Int) + offset.toInt).toNat

def word16At? (code : Array UInt8) (i : Nat) : Option UInt16 :=
  match code[i]?, code[i + 1]? with
  | some hi, some lo => some (BigEndian.word16 hi lo)
  | _, _ => none

namespace JumpTable

/-- Signed 16-bit offsets, two bytes each; an odd byte at the end is dropped. -/
def pairs : List UInt8 → List Int16
  | hi :: lo :: rest => (BigEndian.word16 hi lo).toInt16 :: pairs rest
  | _ => []

theorem length_pairs : (bytes : List UInt8) → (pairs bytes).length = bytes.length / 2
  | [] => rfl
  | [_] => by simp [pairs]
  | _ :: _ :: rest => by
    have shorter := length_pairs rest
    simp only [pairs, List.length_cons, shorter]
    omega

/-- The table of `count` entries whose first entry is at `start`. -/
def read (code : Array UInt8) (start : Nat) (count : UInt8) : JumpTable where
  offsets := pairs (code.extract start (start + 2 * count.toNat)).toList
  length_le := by
    have := count.toNat_lt
    rw [length_pairs, Array.length_toList, Array.size_extract]
    omega

def encode (table : JumpTable) : List UInt8 :=
  table.offsets.flatMap fun offset => BigEndian.bytes16 offset.toUInt16

@[simp] theorem length_encode (table : JumpTable) :
    table.encode.length = 2 * table.offsets.length :=
  BigEndian.length_flatMap_bytes16 _ table.offsets

end JumpTable

def PushData.read (code : Array UInt8) (start : Nat) (size : Fin 33) : PushData where
  bytes := (code.extract start (start + size)).toList
  length_le := by
    rw [Array.length_toList, Array.size_extract]
    omega

namespace StackOp

def opcode : StackOp → Opcode
  | binary op => .binary op
  | unary op => .unary op
  | pop => .pop
  | nop => .nop
  | push data => .push ⟨data.bytes.length, Nat.lt_succ_of_le data.length_le⟩
  | dup depth => .dup depth
  | swap depth => .swap depth

end StackOp

namespace Instruction

def opcode : Instruction → Opcode
  | stack op => op.opcode
  | rjump _ => .rjump
  | rjumpi _ => .rjumpi
  | rjumpv _ => .rjumpv
  | callf _ => .callf
  | retf => .retf
  | stop => .stop
  | finish exit => .finish exit
  | invalid => .invalid
  | delegated op => .delegated op

def info (instr : Instruction) : OpcodeInfo := instr.opcode.info

def operands : Instruction → List UInt8
  | stack (.push data) => data.bytes
  | rjump offset => BigEndian.bytes16 offset.toUInt16
  | rjumpi offset => BigEndian.bytes16 offset.toUInt16
  | rjumpv table => UInt8.ofNat table.offsets.length :: table.encode
  | callf target => BigEndian.bytes16 target
  | _ => []

def encode (instr : Instruction) : List UInt8 :=
  instr.opcode.byte :: instr.operands

def length : Instruction → Nat
  | stack (.push data) => 1 + data.bytes.length
  | rjump _ => 3
  | rjumpi _ => 3
  | rjumpv table => 2 + 2 * table.offsets.length
  | callf _ => 3
  | _ => 1

/-- Reads the operands of an opcode from `start` on; `none` if they run past the end. -/
def readOperands? (code : Array UInt8) (start : Nat) : Opcode → Option Instruction
  | .binary op => some (stack (.binary op))
  | .unary op => some (stack (.unary op))
  | .pop => some (stack .pop)
  | .nop => some (stack .nop)
  | .push size =>
    if start + size ≤ code.size then some (stack (.push (.read code start size))) else none
  | .dup depth => some (stack (.dup depth))
  | .swap depth => some (stack (.swap depth))
  | .rjump => (word16At? code start).map fun n => rjump n.toInt16
  | .rjumpi => (word16At? code start).map fun n => rjumpi n.toInt16
  | .rjumpv =>
    match code[start]? with
    | some count =>
      if start + 1 + 2 * count.toNat ≤ code.size then
        some (rjumpv (.read code (start + 1) count))
      else none
    | none => none
  | .callf => (word16At? code start).map callf
  | .retf => some retf
  | .stop => some stop
  | .finish exit => some (finish exit)
  | .invalid => some invalid
  | .delegated op => some (delegated op)

def decode (code : Array UInt8) (pc : Nat) : Except DecodeError Instruction :=
  match code[pc]? with
  | none => .error (.truncated 0)
  | some byte =>
    match Opcode.ofByte? byte with
    | none => .error (.undefined byte)
    | some op =>
      match readOperands? code (pc + 1) op with
      | none => .error (.truncated byte)
      | some instr => .ok instr

theorem decode_eq_ok {code : Array UInt8} {pc : Nat} {instr : Instruction} :
    decode code pc = .ok instr ↔ ∃ byte op, code[pc]? = some byte ∧ Opcode.ofByte? byte = some op ∧
      readOperands? code (pc + 1) op = some instr := by
  unfold decode
  constructor
  · intro h
    split at h
    · nomatch h
    · rename_i byte found
      split at h
      · nomatch h
      · rename_i op names
        split at h
        · nomatch h
        · rename_i operands
          cases h
          exact ⟨byte, op, found, names, operands⟩
  · rintro ⟨byte, op, found, names, operands⟩
    simp only [found, names, operands]

theorem length_encode (instr : Instruction) : instr.encode.length = instr.length := by
  cases instr with
  | stack op => cases op <;> simp [encode, operands, length, Nat.add_comm]
  | rjumpv table =>
    simp only [encode, operands, length, List.length_cons, JumpTable.length_encode]
    omega
  | _ => rfl

theorem length_pos (instr : Instruction) : 0 < instr.length := by
  rw [← length_encode, encode, List.length_cons]
  omega

end Instruction
end EvmObject
