import EvmObject.Container.Header
/-!
Containers: code sections, each with its type, and data. `encode` writes one and `decode` reads one,
looking at sizes only and not into the code.
-/
namespace EvmObject

/-- What a code section takes from the stack, leaves there, and needs on top of what it takes. -/
structure CodeType where
  inputs : UInt8
  outputs : UInt8
  maxStackHeight : UInt16
deriving DecidableEq, Repr, Inhabited

namespace CodeType

def maxArity : UInt8 := 127

def heightLimit : UInt16 := 1023

def encode (t : CodeType) : List UInt8 :=
  t.inputs :: t.outputs :: BigEndian.bytes16 t.maxStackHeight

def read : Reader CodeType := do
  let inputs ← Reader.byte
  let outputs ← Reader.byte
  let maxStackHeight ← Reader.word16
  pure ⟨inputs, outputs, maxStackHeight⟩

def readTable : (count : Nat) → Reader (List CodeType)
  | 0 => pure []
  | count + 1 => do
    let t ← read
    let ts ← readTable count
    pure (t :: ts)

end CodeType

structure CodeSection where
  type : CodeType
  code : Array UInt8
deriving DecidableEq, Repr

/-- Code sections, of which the first is the entry, and data. -/
structure Container where
  version : UInt8
  sections : Array CodeSection
  data : List UInt8
deriving DecidableEq, Repr

namespace Container

def assemble (sections : Array CodeSection) (data : List UInt8) : Container :=
  ⟨Layout.version, sections, data⟩

/-- The sizes of the parts, each modulo 2^16. -/
def header (c : Container) : Header where
  version := c.version
  typeSize := UInt16.ofNat (c.sections.size * Layout.typeEntrySize)
  codeSizes := c.sections.toList.map fun s => UInt16.ofNat s.code.size
  dataSize := UInt16.ofNat c.data.length

def encode (c : Container) : List UInt8 :=
  c.header.encode
  ++ c.sections.toList.flatMap (fun s => s.type.encode)
  ++ c.sections.toList.flatMap (fun s => s.code.toList)
  ++ c.data

def readCodes : (sizes : List UInt16) → Reader (List (Array UInt8))
  | [] => pure []
  | size :: sizes => do
    let code ← Reader.take size.toNat
    let codes ← readCodes sizes
    pure (code.toArray :: codes)

def readBody (h : Header) : Reader Container := do
  let types ← CodeType.readTable h.codeSizes.length
  let codes ← readCodes h.codeSizes
  let data ← Reader.take h.dataSize.toNat
  pure ⟨h.version, (types.zipWith CodeSection.mk codes).toArray, data⟩

/-- The body has to be as long as the header declares before any of it is read. -/
def read : Reader Container := do
  let header ← Header.read
  let actual ← Reader.remaining
  if actual = header.bodyLength then readBody header
  else throw (.bodySizeMismatch header.bodyLength actual)

def decode (bytes : List UInt8) : Except LayoutError Container :=
  read.answer bytes

end Container
end EvmObject
