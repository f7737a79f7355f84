import EvmObject.Instruction
/-!
The linear sweep of a code section: the instructions met from offset zero on, each starting where
the one before it ends, up to the end or to the first offset where none starts.
-/
namespace EvmObject

/-- What a sweep met: instructions with their offsets, and where it stuck, if it did. -/
structure Sweep where
  lines : List (Nat × Instruction)
  fault : Option (Nat × DecodeError)
deriving DecidableEq

namespace Sweep

/-- Sweeps on from `pc`; `met` holds the lines before it, the last first. -/
def onward (code : Array UInt8) (pc : Nat) (met : List (Nat × Instruction)) : Sweep :=
  if pc < code.size then
    match Instruction.decode code pc with
    | .ok instr => onward code (pc + instr.length) ((pc, instr) :: met)
    | .error e => ⟨met.reverse, some (pc, e)⟩
  else ⟨met.reverse, none⟩
termination_by code.size - pc
decreasing_by
  have := instr.length_pos
  omega

def ofCode (code : Array UInt8) : Sweep := onward code 0 []

end Sweep
end EvmObject
