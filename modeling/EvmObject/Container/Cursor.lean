import EvmObject.BigEndian
import EvmObject.Container.Layout
/-!
Reading bytes from front to back. A reader that wants more bytes than are left fails with the
offset where it stands and takes none. Main statements: one equation for each reader.
-/
namespace EvmObject

/-- The bytes not yet read, and how many were read before them. -/
structure Cursor where
  offset : Nat
  rest : List UInt8
deriving DecidableEq, Repr

def Cursor.ofBytes (bytes : List UInt8) : Cursor := ⟨0, bytes⟩

/-- Steps a cursor forward to a value or to an error; after an error it stands where that arose. -/
abbrev Reader := EStateM LayoutError Cursor

namespace Reader

def unexpectedEnd {α : Type} : Reader α := fun c => .error (.unexpectedEnd c.offset) c

def offset : Reader Nat := fun c => .ok c.offset c

def remaining : Reader Nat := fun c => .ok c.rest.length c

def peek : Reader UInt8 := fun c =>
  match c.rest with
  | b :: _ => .ok b c
  | [] => unexpectedEnd c

def byte : Reader UInt8 := fun c =>
  match c.rest with
  | b :: rest => .ok b ⟨c.offset + 1, rest⟩
  | [] => unexpectedEnd c

def word16 : Reader UInt16 := fun c =>
  match c.rest with
  | hi :: lo :: rest => .ok (BigEndian.word16 hi lo) ⟨c.offset + 2, rest⟩
  | _ => unexpectedEnd c

def take (n : Nat) : Reader (List UInt8) := fun c =>
  let front := c.rest.take n
  if front.length = n then .ok front ⟨c.offset + n, c.rest.drop n⟩ else unexpectedEnd c

/-- The value read from the first byte on, without the cursor. -/
def answer {α : Type} (r : Reader α) (bytes : List UInt8) : Except LayoutError α :=
  match r (Cursor.ofBytes bytes) with
  | .ok a _ => .ok a
  | .error e _ => .error e

theorem byte_cons (n : Nat) (b : UInt8) (rest : List UInt8) :
    byte ⟨n, b :: rest⟩ = .ok b ⟨n + 1, rest⟩ := rfl

theorem word16_bytes16 (n : Nat) (w : UInt16) (rest : List UInt8) :
    word16 ⟨n, BigEndian.bytes16 w ++ rest⟩ = .ok w ⟨n + 2, rest⟩ := by
  change EStateM.Result.ok (BigEndian.word16 _ _) _ = _
  rw [BigEndian.word16_bytes16]
  rfl

theorem take_append (n : Nat) (front rest : List UInt8) :
    take front.length ⟨n, front ++ rest⟩ = .ok front ⟨n + front.length, rest⟩ := by
  simp [take]

end Reader
end EvmObject
