import EvmObject.Container
import EvmObject.Instruction.Sweep
/-!
Which code sections are legal. A section is judged alone: by its type, by the instructions of its
sweep and by where its jumps lead; of the others only their count matters. `defect?` finds the first
thing wrong, types before instructions and instructions before jumps.
-/
namespace EvmObject

inductive Defect where
  | undefinedOpcode (byte : UInt8)
  | truncatedOperand (byte : UInt8)
  | callTargetOutOfRange (target sections : Nat)
  | jumpOutOfBounds (target : Int) (length : Nat)
  | jumpIntoCallOperand (target : Nat)
  | jumpIntoOperand (target : Nat)
  | emptyJumpTable
  | entryArity (inputs outputs : UInt8)
  | inputsOutOfRange (inputs : UInt8)
  | outputsOutOfRange (outputs : UInt8)
  | stackHeightOutOfRange (height : UInt16)
deriving DecidableEq, Repr

structure SectionError where
  index : Nat
  offset : Nat
  defect : Defect
deriving DecidableEq, Repr

inductive ContainerError where
  | layout (e : LayoutError)
  | code (e : SectionError)
deriving DecidableEq, Repr

inductive ByteRole where
  | opcode | operand | callOperand
deriving DecidableEq, Repr

namespace Defect

def message : Defect → String
  | undefinedOpcode byte => s!"undefined opcode {Numeral.byteText byte}"
  | truncatedOperand byte =>
    s!"immediate of opcode {Numeral.byteText byte} runs past the end of the section"
  | callTargetOutOfRange target sections =>
    s!"CALLF target {target} out of range ({sections} code sections)"
  | jumpOutOfBounds target length =>
    s!"relative jump target {target} outside section of length {length}"
  | jumpIntoCallOperand target => s!"relative jump target {target} lands on a CALLF immediate"
  | jumpIntoOperand target => s!"relative jump target {target} lands on immediate data"
  | emptyJumpTable => "RJUMPV with an empty jump table"
  | entryArity inputs outputs =>
    s!"entry section must have 0 inputs and 0 outputs, found {inputs.toNat} -> {outputs.toNat}"
  | inputsOutOfRange inputs => s!"inputs {inputs.toNat} exceed 127"
  | outputsOutOfRange outputs => s!"outputs {outputs.toNat} exceed 127"
  | stackHeightOutOfRange height => s!"max_stack_height {height.toNat} exceeds 1023"

def ofDecodeError : DecodeError → Defect
  | .undefined byte => undefinedOpcode byte
  | .truncated byte => truncatedOperand byte

end Defect

namespace SectionError

def message (e : SectionError) : String :=
  s!"code section {e.index} invalid at offset {e.offset}: {e.defect.message}"

end SectionError

namespace ContainerError

def message : ContainerError → String
  | layout e => e.message
  | code e => e.message

end ContainerError

namespace Instruction

def roles (instr : Instruction) : List ByteRole :=
  let rest := match instr with
    | callf _ => ByteRole.callOperand
    | _ => ByteRole.operand
  ByteRole.opcode :: List.replicate (instr.length - 1) rest

def offsets : Instruction → List Int16
  | rjump offset => [offset]
  | rjumpi offset => [offset]
  | rjumpv table => table.offsets
  | _ => []

/-- What is wrong with the operands alone, in a container of `count` sections. -/
def operandDefect? (count : Nat) : Instruction → Option Defect
  | callf target =>
    if target.toNat < count then none else some (.callTargetOutOfRange target.toNat count)
  | rjumpv table => if table.offsets = [] then some .emptyJumpTable else none
  | _ => none

end Instruction

namespace Sweep

def roles (s : Sweep) : Array ByteRole :=
  (s.lines.flatMap fun line => line.2.roles).toArray

def operandDefect? (s : Sweep) (count : Nat) : Option (Nat × Defect) :=
  s.lines.findSome? fun line => (line.2.operandDefect? count).map fun d => (line.1, d)

def faultDefect? (s : Sweep) : Option (Nat × Defect) :=
  s.fault.map fun f => (f.1, .ofDecodeError f.2)

/-- What is wrong with a jump by `offset` from `next` among bytes of these roles. -/
def landingDefect? (roles : Array ByteRole) (next : Nat) (offset : Int16) : Option Defect :=
  match relativeTarget next offset with
  | none => some (.jumpOutOfBounds (next + offset.toInt) roles.size)
  | some target =>
    match roles[target]? with
    | none => some (.jumpOutOfBounds (next + offset.toInt) roles.size)
    | some .opcode => none
    | some .operand => some (.jumpIntoOperand target)
    | some .callOperand => some (.jumpIntoCallOperand target)

def jumpDefect? (s : Sweep) : Option (Nat × Defect) :=
  let roles := s.roles
  s.lines.findSome? fun line =>
    (line.2.offsets.findSome? (landingDefect? roles (line.1 + line.2.length))).map
      fun d => (line.1, d)

end Sweep

/-- What is wrong with a type; the entry section takes nothing and leaves nothing. -/
def CodeType.defect? (index : Nat) (t : CodeType) : Option Defect :=
  if index = 0 ∧ ¬ (t.inputs = 0 ∧ t.outputs = 0) then some (.entryArity t.inputs t.outputs)
  else if CodeType.maxArity < t.inputs then some (.inputsOutOfRange t.inputs)
  else if CodeType.maxArity < t.outputs then some (.outputsOutOfRange t.outputs)
  else if CodeType.heightLimit < t.maxStackHeight then
    some (.stackHeightOutOfRange t.maxStackHeight)
  else none

/-- The first thing wrong with the section at `index` of `count`, and the offset where it is. -/
def CodeSection.defect? (count index : Nat) (s : CodeSection) : Option (Nat × Defect) :=
  let sweep := Sweep.ofCode s.code
  ((s.type.defect? index).map fun d => (0, d))
    <|> sweep.operandDefect? count
    <|> sweep.faultDefect?
    <|> sweep.jumpDefect?

namespace Container

def defectFrom? (count : Nat) : (index : Nat) → List CodeSection → Option SectionError
  | _, [] => none
  | index, s :: rest =>
    match s.defect? count index with
    | some (offset, d) => some ⟨index, offset, d⟩
    | none => defectFrom? count (index + 1) rest

/-- Judges all code sections; of several bad ones the first is reported. -/
def validate (c : Container) : Except SectionError Unit :=
  match defectFrom? c.sections.size 0 c.sections.toList with
  | some e => .error e
  | none => .ok ()

def load (bytes : List UInt8) : Except ContainerError Container :=
  match decode bytes with
  | .error e => .error (.layout e)
  | .ok c =>
    match c.validate with
    | .error e => .error (.code e)
    | .ok () => .ok c

end Container
end EvmObject
