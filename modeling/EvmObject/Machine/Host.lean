import EvmObject.Machine.Halt
import EvmObject.Word
/-!
What a machine asks of the world around it: gas, and the opcodes that it does not carry out itself.
A host is given by its answers on a state of its own.
-/
namespace EvmObject

/-- Answers to a machine's requests, over states of type `σ`. -/
structure Host (σ : Type) where
  charge : UInt64 → σ → Except Halt Unit × σ
  /-- Carries out the opcode that the byte writes on inputs listed deepest first. The results are
  listed in the order in which they are pushed. -/
  external : UInt8 → List Word → σ → Except Halt (List Word) × σ
  gasUsed : σ → UInt64

/-- A host whose charges come out of a finite allowance, which no answer refills. -/
class Host.Metered {σ : Type} (host : Host σ) where
  left : σ → Nat
  left_charge : ∀ amount s t, host.charge amount s = (.ok (), t) → left t + amount.toNat ≤ left s
  left_external : ∀ byte inputs s, left (host.external byte inputs s).2 ≤ left s

end EvmObject
