import EvmObject.Proofs.Metering
/-!
What a meter does over any charges, in exact numbers. A refused charge uses the whole allowance up, and then
nothing is granted any more, unless its sum does not fit 64 bits: such a charge leaves the meter as it is. Main
statement: `allowance_law`.
-/
namespace EvmObject.GasMeter

variable {m : GasMeter} {limit amount : UInt64}

/-- Charges one amount after the other, going on past those that are refused. -/
def chargeAll (m : GasMeter) (amounts : List UInt64) : GasMeter :=
  amounts.foldl (fun m amount => (m.charge amount).2) m

theorem limit_charge (m : GasMeter) (amount : UInt64) : (m.charge amount).2.limit = m.limit := by
  unfold charge
  split
  · rfl
  · split <;> rfl

theorem limit_chargeAll (m : GasMeter) (amounts : List UInt64) : (m.chargeAll amounts).limit = m.limit := by
  induction amounts generalizing m with
  | nil => rfl
  | cons amount rest ih => exact (ih (m.charge amount).2).trans (limit_charge m amount)

theorem Reachable.chargeAll (h : m.Reachable) (amounts : List UInt64) : (m.chargeAll amounts).Reachable := by
  induction amounts generalizing m with
  | nil => exact h
  | cons amount rest ih => exact ih (h.charge amount)

theorem used_add_remaining (within : m.used ≤ m.limit) :
    m.used.toNat + m.remaining.toNat = m.limit.toNat := by
  have le := UInt64.le_iff_toNat_le.1 within
  rw [remaining, UInt64.toNat_sub_of_le _ _ within]
  omega

theorem granted_iff : (m.charge amount).1 = .ok () ↔ m.used.toNat + amount.toNat ≤ m.limit.toNat := by
  constructor
  · intro granted
    obtain ⟨limit, used, within⟩ := used_charge (Prod.ext granted rfl)
    have le := UInt64.le_iff_toNat_le.1 within
    rwa [used, limit] at le
  · intro fits
    rw [charge_of_le fits]

theorem used_of_granted (fits : m.used.toNat + amount.toNat ≤ m.limit.toNat) :
    (m.charge amount).2.used.toNat = m.used.toNat + amount.toNat :=
  (used_charge (Prod.ext (granted_iff.2 fits) rfl)).2.1

theorem charge_of_exceeds (exceeds : m.limit.toNat < m.used.toNat + amount.toNat)
    (fits : m.used.toNat + amount.toNat < UInt64.size) :
    m.charge amount = (.error .outOfGas, ⟨m.limit, m.limit⟩) := by
  have sum : (m.used + amount).toNat = m.used.toNat + amount.toNat := by
    rw [UInt64.toNat_add]
    exact Nat.mod_eq_of_lt fits
  have beyond : m.limit < m.used + amount := by
    rw [UInt64.lt_iff_toNat_lt, sum]
    exact exceeds
  rw [charge, if_neg (Nat.not_le.2 fits), if_pos beyond]

theorem charge_of_overflow (wraps : UInt64.size ≤ m.used.toNat + amount.toNat) :
    m.charge amount = (.error .outOfGas, m) := by
  rw [charge, if_pos wraps]

theorem charge_spent (limit amount : UInt64) :
    ((⟨limit, limit⟩ : GasMeter).charge amount).2 = ⟨limit, limit⟩ := by
  by_cases wraps : UInt64.size ≤ limit.toNat + amount.toNat
  · rw [charge_of_overflow wraps]
  · by_cases exceeds : limit.toNat < limit.toNat + amount.toNat
    · rw [charge_of_exceeds exceeds (Nat.lt_of_not_le wraps)]
    · have zero : amount = 0 := by
        rw [← UInt64.toNat_inj]
        change amount.toNat = 0
        omega
      rw [charge_of_le (Nat.le_of_not_lt exceeds), zero, UInt64.add_zero]

theorem chargeAll_spent (limit : UInt64) (amounts : List UInt64) :
    (⟨limit, limit⟩ : GasMeter).chargeAll amounts = ⟨limit, limit⟩ := by
  induction amounts with
  | nil => rfl
  | cons amount rest ih =>
    rw [chargeAll, List.foldl_cons, charge_spent]
    exact ih

theorem granted_spent : ((⟨limit, limit⟩ : GasMeter).charge amount).1 = .ok () ↔ amount = 0 := by
  rw [granted_iff, UInt64.toNat_inj.symm]
  dsimp only
  change _ ↔ amount.toNat = 0
  omega

/-- After any charges of a full meter no more is used than its limit, and the rest remains. The next amount is
granted just if it fits into the rest, and then it is added. Any other is refused for want of gas. If its sum fits
64 bits nothing remains, and none but an amount of zero is ever granted again; if not, the meter is as before. -/
theorem allowance_law {amounts : List UInt64} (history : (full limit).chargeAll amounts = m) (amount : UInt64) :
    m.limit = limit ∧ m.used ≤ limit ∧ m.used.toNat + m.remaining.toNat = limit.toNat ∧
    ((m.charge amount).1 = .ok () ↔ m.used.toNat + amount.toNat ≤ limit.toNat) ∧
    (m.used.toNat + amount.toNat ≤ limit.toNat →
      (m.charge amount).2.used.toNat = m.used.toNat + amount.toNat) ∧
    (limit.toNat < m.used.toNat + amount.toNat → (m.charge amount).1 = .error .outOfGas ∧
      if m.used.toNat + amount.toNat < UInt64.size then
        (m.charge amount).2.used = limit ∧ (m.charge amount).2.remaining = 0 ∧
          ∀ later other, (((m.charge amount).2.chargeAll later).charge other).1 = .ok () ↔ other = 0
      else (m.charge amount).2 = m) := by
  have limits : m.limit = limit := history ▸ limit_chargeAll (full limit) amounts
  have within : m.used ≤ m.limit := history ▸ ((Reachable.full limit).chargeAll amounts).within
  have whole := used_add_remaining within
  rw [limits] at within whole
  refine ⟨limits, within, whole, limits ▸ granted_iff, fun fits => used_of_granted (limits ▸ fits), ?_⟩
  intro exceeds
  rw [← limits] at exceeds
  by_cases fits : m.used.toNat + amount.toNat < UInt64.size
  · have refused : m.charge amount = (.error .outOfGas, ⟨limit, limit⟩) :=
      limits ▸ charge_of_exceeds exceeds fits
    have none : (⟨limit, limit⟩ : GasMeter).remaining = 0 := UInt64.sub_self limit
    rw [if_pos fits, refused]
    refine ⟨rfl, rfl, none, fun later other => ?_⟩
    dsimp only
    rw [chargeAll_spent]
    exact granted_spent
  · rw [if_neg fits, charge_of_overflow (Nat.le_of_not_lt fits)]
    exact ⟨rfl, rfl⟩

/-- Eight of ten are used and three are refused: then all ten are, and one is refused after five are. -/
theorem allowance_of_ten :
    10 < 8 + 3 ∧ (((full 10).chargeAll [8]).charge 3).2.used = 10 ∧
      ((((full 10).chargeAll [8]).charge 3).2.chargeAll [5] |>.charge 1).1 ≠ .ok () := by
  have history : (full 10).chargeAll [8] = ⟨10, 8⟩ := rfl
  obtain ⟨_, _, _, _, _, refused⟩ := allowance_law history 3
  obtain ⟨_, spent⟩ := refused (by decide)
  rw [if_pos (by decide)] at spent
  obtain ⟨used, _, later⟩ := spent
  rw [history]
  exact ⟨by decide, used, fun granted => absurd ((later [5] 1).1 granted) (by decide)⟩

/-- Not every refusal uses the allowance up: five of ten are used, and still are when the greatest amount is
refused, so that the other five are granted after it. -/
theorem refusal_keeps_rest :
    ¬ ∀ (limit : UInt64) (amounts : List UInt64) (amount : UInt64),
      (((full limit).chargeAll amounts).charge amount).1 = .error .outOfGas →
      (((full limit).chargeAll amounts).charge amount).2.used = limit := by
  intro law
  exact absurd (law 10 [5] 0xFFFFFFFFFFFFFFFF rfl) (by decide)

end EvmObject.GasMeter
