import EvmObject.Text.Numeral
/-!
The fixed parts of the container layout and the ways bytes can fail to have it.
-/
namespace EvmObject

namespace Layout

def magic : List UInt8 := [0xEF, 0x00]

def version : UInt8 := 1

/-- Marks the size of the type table. -/
def typeKind : UInt8 := 1

/-- Marks the count and the sizes of the code sections. -/
def codeKind : UInt8 := 2

/-- Marks the size of the data. -/
def dataKind : UInt8 := 3

def terminator : UInt8 := 0

def typeEntrySize : Nat := 4

def maxCodeSections : Nat := 1024

end Layout

/-- The first rule of the layout that the bytes break. -/
inductive LayoutError where
  | unexpectedEnd (offset : Nat)
  | badMagic
  | unsupportedVersion (version : UInt8)
  | unexpectedKind (offset : Nat) (expected found : UInt8)
  | codeSectionCount (count : Nat)
  | zeroCodeSize (index : Nat)
  | typeSizeMismatch (declared sections : Nat)
  | missingTerminator (offset : Nat) (found : UInt8)
  | bodySizeMismatch (expected actual : Nat)
deriving DecidableEq, Repr

namespace LayoutError

def message : LayoutError → String
  | unexpectedEnd offset => s!"unexpected end of input at offset {offset}"
  | badMagic => "bad magic: expected 0xef00"
  | unsupportedVersion version => s!"unsupported container version {version.toNat}"
  | unexpectedKind offset expected found =>
    s!"unexpected section kind {Numeral.byteText found} at offset {offset} (expected {Numeral.byteText expected})"
  | codeSectionCount count => s!"invalid number of code sections: {count} (must be 1..=1024)"
  | zeroCodeSize index => s!"code section {index} declares size 0"
  | typeSizeMismatch declared sections =>
    s!"type section size {declared} does not match 4 * {sections} code sections"
  | missingTerminator offset found =>
    s!"missing header terminator at offset {offset} (found {Numeral.byteText found})"
  | bodySizeMismatch expected actual =>
    s!"container body is {actual} bytes, header declares {expected}"

end LayoutError
end EvmObject
