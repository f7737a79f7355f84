import EvmObject.Host.GasMeter
/-!
A host that answers from a script: for each opcode a list of replies, taken in order, the last of
them again and again.
-/
namespace EvmObject

inductive Reply where
  | words (results : List Word)
  /-- The inputs come back as results. -/
  | echo
  | refuse (reason : Halt)
deriving DecidableEq

structure Script where
  meter : GasMeter
  replies : List (UInt8 × List Reply)

namespace Reply

def answer (inputs : List Word) : Reply → Except Halt (List Word)
  | words results => .ok results
  | echo => .ok inputs
  | refuse reason => .error reason

end Reply

namespace Script

/-- The next reply for an opcode, and the replies that remain; the last one always does. -/
def take? (byte : UInt8) : List (UInt8 × List Reply) → Option (Reply × List (UInt8 × List Reply))
  | [] => none
  | (b, replies) :: rest =>
    if b = byte then
      match replies with
      | [] => none
      | [last] => some (last, (b, [last]) :: rest)
      | reply :: later => some (reply, (b, later) :: rest)
    else (take? byte rest).map fun taken => (taken.1, (b, replies) :: taken.2)

end Script

namespace Host

/-- Keeps a meter and answers as the script says; an opcode without replies is unsupported. -/
def scripted : Host Script where
  charge amount s := ((s.meter.charge amount).1, { s with meter := (s.meter.charge amount).2 })
  external byte inputs s :=
    match Script.take? byte s.replies with
    | some (reply, replies) => (reply.answer inputs, { s with replies })
    | none => (.error (.unsupported byte), s)
  gasUsed s := s.meter.used

instance : scripted.Metered where
  left s := s.meter.left
  left_charge amount s t h := by
    have ⟨accepted, paid⟩ := Prod.mk.inj h
    rw [← paid]
    exact GasMeter.left_charge (Prod.ext accepted rfl)
  left_external byte inputs s := by
    simp only [scripted]
    split <;> exact Nat.le_refl _

end Host
end EvmObject
