import EvmObject.Container.Cursor
/-!
The header of a container: its version and the sizes of its parts. `encode` writes it, `read`
reads it and refuses the first field that breaks a rule, in the order of the bytes.
-/
namespace EvmObject

structure Header where
  version : UInt8
  typeSize : UInt16
  codeSizes : List UInt16
  dataSize : UInt16
deriving DecidableEq, Repr

namespace Header

def bodyLength (h : Header) : Nat :=
  h.typeSize.toNat + h.codeSizes.foldr (fun size n => size.toNat + n) 0 + h.dataSize.toNat

def length (h : Header) : Nat :=
  13 + 2 * h.codeSizes.length

/-- The bytes of a header. The count of sections is written modulo 2^16. -/
def encode (h : Header) : List UInt8 :=
  Layout.magic ++ [h.version]
  ++ Layout.typeKind :: BigEndian.bytes16 h.typeSize
  ++ Layout.codeKind :: BigEndian.bytes16 (UInt16.ofNat h.codeSizes.length)
  ++ h.codeSizes.flatMap BigEndian.bytes16
  ++ Layout.dataKind :: BigEndian.bytes16 h.dataSize
  ++ [Layout.terminator]

/-- Fewer than two bytes are a wrong magic too, and stay unread. -/
def readMagic : Reader Unit := fun c =>
  match c.rest with
  | a :: b :: rest =>
    if [a, b] = Layout.magic then .ok () ⟨c.offset + 2, rest⟩
    else .error .badMagic ⟨c.offset + 2, rest⟩
  | _ => .error .badMagic c

def readVersion : Reader UInt8 := do
  let version ← Reader.byte
  if version = Layout.version then pure version
  else throw (.unsupportedVersion version)

def readKind (expected : UInt8) : Reader Unit := do
  let offset ← Reader.offset
  let found ← Reader.byte
  if found = expected then pure ()
  else throw (.unexpectedKind offset expected found)

/-- The count of code sections, which the size of the type table has to match. -/
def readCount (typeSize : UInt16) : Reader Nat := do
  let word ← Reader.word16
  let count := word.toNat
  if count = 0 ∨ Layout.maxCodeSections < count then throw (.codeSectionCount count)
  else if typeSize.toNat = Layout.typeEntrySize * count then pure count
  else throw (.typeSizeMismatch typeSize.toNat count)

/-- The sizes of `count` code sections, of which the first is the one at `index`. -/
def readSizes (index : Nat) : (count : Nat) → Reader (List UInt16)
  | 0 => pure []
  | count + 1 => do
    let size ← Reader.word16
    if size = 0 then throw (.zeroCodeSize index)
    else
      let sizes ← readSizes (index + 1) count
      pure (size :: sizes)

def readTerminator : Reader Unit := do
  let offset ← Reader.offset
  let found ← Reader.byte
  if found = Layout.terminator then pure ()
  else throw (.missingTerminator offset found)

def read : Reader Header := do
  readMagic
  let version ← readVersion
  readKind Layout.typeKind
  let typeSize ← Reader.word16
  readKind Layout.codeKind
  let count ← readCount typeSize
  let codeSizes ← readSizes 0 count
  readKind Layout.dataKind
  let dataSize ← Reader.word16
  readTerminator
  pure ⟨version, typeSize, codeSizes, dataSize⟩

theorem length_encode (h : Header) : h.encode.length = h.length := by
  simp only [encode, length, Layout.magic, List.length_append, List.length_cons,
    List.length_nil, BigEndian.length_bytes16,
    BigEndian.length_flatMap_bytes16 (fun size => size) h.codeSizes]
  omega

end Header
end EvmObject
