import EvmObject.Machine.Host
/-!
A gas counter against a fixed limit, and the hosts that keep nothing else.
-/
namespace EvmObject

structure GasMeter where
  limit : UInt64
  used : UInt64
deriving DecidableEq, Repr

namespace GasMeter

def full (limit : UInt64) : GasMeter := ⟨limit, 0⟩

def remaining (m : GasMeter) : UInt64 := m.limit - m.used

/-- Adds an amount. One that does not fit the allowance is refused and uses all of it up; one whose
sum does not fit 64 bits is refused and leaves the meter as it is. -/
def charge (amount : UInt64) (m : GasMeter) : Except Halt Unit × GasMeter :=
  if UInt64.size ≤ m.used.toNat + amount.toNat then (.error .outOfGas, m)
  else if m.limit < m.used + amount then (.error .outOfGas, ⟨m.limit, m.limit⟩)
  else (.ok (), ⟨m.limit, m.used + amount⟩)

def left (m : GasMeter) : Nat := m.limit.toNat - m.used.toNat

theorem used_charge {amount : UInt64} {m n : GasMeter} (h : m.charge amount = (.ok (), n)) :
    n.limit = m.limit ∧ n.used.toNat = m.used.toNat + amount.toNat ∧ n.used ≤ n.limit := by
  unfold charge at h
  split at h
  · nomatch h
  · rename_i fits
    split at h
    · nomatch h
    · rename_i within
      rw [← (Prod.mk.inj h).2]
      refine ⟨rfl, ?_, UInt64.not_lt.1 within⟩
      rw [UInt64.toNat_add, Nat.mod_eq_of_lt (Nat.lt_of_not_le fits)]

theorem charge_of_le {amount : UInt64} {m : GasMeter}
    (within : m.used.toNat + amount.toNat ≤ m.limit.toNat) :
    m.charge amount = (.ok (), ⟨m.limit, m.used + amount⟩) := by
  have fits : m.used.toNat + amount.toNat < UInt64.size := Nat.lt_of_le_of_lt within m.limit.toNat_lt
  have sum : (m.used + amount).toNat = m.used.toNat + amount.toNat := by
    rw [UInt64.toNat_add]
    exact Nat.mod_eq_of_lt fits
  have allowed : ¬ m.limit < m.used + amount := by
    rw [UInt64.lt_iff_toNat_lt, sum]
    exact Nat.not_lt.2 within
  rw [charge, if_neg (Nat.not_le.2 fits), if_neg allowed]

theorem left_charge {amount : UInt64} {m n : GasMeter} (h : m.charge amount = (.ok (), n)) :
    n.left + amount.toNat ≤ m.left := by
  obtain ⟨limit, used, within⟩ := used_charge h
  have bound := UInt64.le_iff_toNat_le.1 within
  rw [limit] at bound
  simp only [left, limit]
  omega

end GasMeter

namespace Host

/-- Keeps a meter and accepts returns and reverts, which have no outputs; all else is unsupported. -/
def basic : Host GasMeter where
  charge := GasMeter.charge
  external byte _ m :=
    if byte = (Opcode.finish .success).byte ∨ byte = (Opcode.finish .revert).byte then (.ok [], m)
    else (.error (.unsupported byte), m)
  gasUsed := GasMeter.used

def bare : Host GasMeter where
  charge := GasMeter.charge
  external byte _ m := (.error (.unsupported byte), m)
  gasUsed := GasMeter.used

instance : basic.Metered where
  left := GasMeter.left
  left_charge _ _ _ := GasMeter.left_charge
  left_external byte _ m := by
    simp only [basic]
    split <;> exact Nat.le_refl _

instance : bare.Metered where
  left := GasMeter.left
  left_charge _ _ _ := GasMeter.left_charge
  left_external _ _ _ := Nat.le_refl _

end Host
end EvmObject
