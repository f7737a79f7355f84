import EvmObject.Machine.Host
/-!
A host that passes every request on to another one and keeps a record of all of them.
-/
namespace EvmObject

variable {σ : Type}

/-- What a machine asks of its host. -/
inductive Request where
  | charge (amount : UInt64)
  | external (byte : UInt8) (inputs : List Word)
deriving DecidableEq

/-- The state of the recorded host and the requests it got, the last first. -/
abbrev Record (σ : Type) := σ × List Request

namespace Record

def start (s : σ) : Record σ := (s, [])

def charges (r : Record σ) : List UInt64 :=
  r.2.filterMap fun
    | .charge amount => some amount
    | .external _ _ => none

def calls (r : Record σ) : List (UInt8 × List Word) :=
  r.2.filterMap fun
    | .charge _ => none
    | .external byte inputs => some (byte, inputs)

end Record

namespace Host

def recorded (host : Host σ) : Host (Record σ) where
  charge amount r :=
    ((host.charge amount r.1).1, (host.charge amount r.1).2, .charge amount :: r.2)
  external byte inputs r :=
    ((host.external byte inputs r.1).1, (host.external byte inputs r.1).2,
      .external byte inputs :: r.2)
  gasUsed r := host.gasUsed r.1

instance (host : Host σ) [metered : host.Metered] : host.recorded.Metered where
  left r := metered.left r.1
  left_charge amount r t h := by
    have ⟨accepted, paid⟩ := Prod.mk.inj h
    rw [← paid]
    exact metered.left_charge amount r.1 _ (Prod.ext accepted rfl)
  left_external byte inputs r := metered.left_external byte inputs r.1

end Host
end EvmObject
