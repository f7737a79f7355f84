import EvmObject.Container
import EvmObject.Instruction.Sweep
import EvmObject.Text.Numeral
/-!
The listing of a container: a heading for each code section, its instructions with their offsets,
byte for byte what follows the last of them, and the size of the data.
-/
namespace EvmObject

inductive Line where
  | heading (index : Nat) (type : CodeType)
  | instruction (index offset : Nat) (instr : Instruction)
  /-- A byte behind the point where no instruction starts. -/
  | byte (index offset : Nat) (b : UInt8)
  | data (length : Nat)
deriving DecidableEq

namespace Instruction

def jumpText (next : Nat) (offset : Int16) : List Char :=
  ' ' :: Numeral.signed offset.toInt ++ " -> ".toList ++
    match relativeTarget next offset with
    | some target => "0x".toList ++ Numeral.hex 4 target
    | none => "<before start>".toList

/-- The operands as a listing shows them; `next` is the offset after the instruction. -/
def operandText (next : Nat) : Instruction → List Char
  | stack (.push data) =>
    if data.bytes = [] then [] else " 0x".toList ++ Numeral.bytes data.bytes
  | callf target => ' ' :: Numeral.decimal target.toNat
  | rjump offset => jumpText next offset
  | rjumpi offset => jumpText next offset
  | rjumpv table =>
    ' ' :: Numeral.decimal table.offsets.length ++ table.offsets.flatMap (jumpText next)
  | _ => []

end Instruction

namespace Line

def place (index offset : Nat) : List Char :=
  Numeral.decimal index ++ ':' :: Numeral.hex 4 offset ++ "  ".toList

def text : Line → List Char
  | heading index type =>
    "section ".toList ++ Numeral.decimal index
    ++ " (inputs ".toList ++ Numeral.decimal type.inputs.toNat
    ++ ", outputs ".toList ++ Numeral.decimal type.outputs.toNat
    ++ ", max_stack_height ".toList ++ Numeral.decimal type.maxStackHeight.toNat ++ [')']
  | instruction index offset instr =>
    place index offset ++ instr.info.name.toList ++ instr.operandText (offset + instr.length)
  | byte index offset b => place index offset ++ ".byte 0x".toList ++ Numeral.byte b
  | data length => "data: ".toList ++ Numeral.decimal length ++ " bytes".toList

end Line

namespace CodeSection

def byteLines (index offset : Nat) (bytes : List UInt8) : List Line :=
  (bytes.zipIdx offset).map fun b => .byte index b.2 b.1

def listing (index : Nat) (s : CodeSection) : List Line :=
  let sweep := Sweep.ofCode s.code
  .heading index s.type :: sweep.lines.map (fun l => .instruction index l.1 l.2)
  ++ match sweep.fault with
    | some (offset, _) => byteLines index offset (s.code.toList.drop offset)
    | none => []

end CodeSection

namespace Container

def listing (c : Container) : List Line :=
  c.sections.toList.zipIdx.flatMap (fun s => s.1.listing s.2) ++ [.data c.data.length]

/-- The text of the listing, each line closed by a newline. -/
def disassemble (c : Container) : List Char :=
  c.listing.flatMap fun line => line.text ++ ['\n']

end Container
end EvmObject
