import EvmObject.Instruction
import EvmObject.Text.Numeral
/-!
Exceptional halts: the faults that end a run.
-/
namespace EvmObject

inductive Halt where
  | stackUnderflow (required available : Nat)
  | stackOverflow (limit : Nat)
  | returnStackOverflow (limit : Nat)
  | callTargetOutOfRange (target : Nat)
  | callStackLimit (height : Nat) (maxStackHeight : UInt16)
  | outputMismatch (expected actual : Nat)
  | outOfGas
  | invalidInstruction
  | undefinedInstruction (byte : UInt8)
  | unsupported (byte : UInt8)
  | truncatedOperand (byte : UInt8)
  | invalidJump
  | hostOutputMismatch (byte : UInt8) (expected actual : Nat)
deriving DecidableEq, Repr

namespace Halt

def message : Halt → String
  | stackUnderflow required available =>
    s!"stack underflow: need {required} items above the frame floor, {available} visible"
  | stackOverflow limit => s!"stack overflow: limit {limit}"
  | returnStackOverflow limit => s!"return stack overflow: limit {limit}"
  | callTargetOutOfRange target => s!"CALLF target {target} out of range"
  | callStackLimit height maxStackHeight =>
    s!"CALLF at stack height {height} may exceed the limit " ++
      s!"(callee max_stack_height {maxStackHeight.toNat})"
  | outputMismatch expected actual => s!"RETF expected stack height {expected}, found {actual}"
  | outOfGas => "out of gas"
  | invalidInstruction => "INVALID instruction executed"
  | undefinedInstruction byte => s!"undefined opcode {Numeral.byteText byte}"
  | unsupported byte => s!"opcode {Numeral.byteText byte} is not supported by the host"
  | truncatedOperand byte => s!"immediate of opcode {Numeral.byteText byte} is truncated"
  | invalidJump => "relative jump to invalid target"
  | hostOutputMismatch byte expected actual =>
    s!"host returned {actual} outputs for opcode {Numeral.byteText byte}, expected {expected}"

def ofDecodeError : DecodeError → Halt
  | .undefined byte => undefinedInstruction byte
  | .truncated byte => truncatedOperand byte

end Halt
end EvmObject
