import EvmObject.Host.GasMeter
import EvmObject.Proofs.Advance
/-!
Gas bounds the length of every run: each step that goes on is paid for out of what the steps before it
left over. Main statement: `gas_bounds_run`.
-/
namespace EvmObject

variable {σ : Type} {host : Host σ} {meter : σ → GasMeter} {c : Container} {ctx ctx' : Context}
  {s t : σ}

theorem GasMeter.left_le_remaining (m : GasMeter) : m.left ≤ m.remaining.toNat := by
  by_cases within : m.used ≤ m.limit
  · have same : m.remaining.toNat = m.left := UInt64.toNat_sub_of_le _ _ within
    exact Nat.le_of_eq same.symm
  · have exceeded := UInt64.lt_iff_toNat_lt.1 (UInt64.not_le.1 within)
    have none : m.left = 0 := Nat.sub_eq_zero_of_le (Nat.le_of_lt exceeded)
    rw [none]
    exact Nat.zero_le _

/-- What charges make of a full meter, those that are refused among them. -/
inductive GasMeter.Reachable : GasMeter → Prop
  | full (limit : UInt64) : Reachable (.full limit)
  | charge {m : GasMeter} (before : m.Reachable) (amount : UInt64) : Reachable (m.charge amount).2

theorem GasMeter.within_charge {m : GasMeter} (within : m.used ≤ m.limit) (amount : UInt64) :
    (m.charge amount).2.used ≤ (m.charge amount).2.limit := by
  unfold charge
  split
  · exact within
  · split
    · exact UInt64.le_refl _
    · rename_i fits
      exact UInt64.not_lt.1 fits

theorem GasMeter.Reachable.within {m : GasMeter} (h : m.Reachable) : m.used ≤ m.limit := by
  induction h with
  | full limit => exact UInt64.zero_le
  | charge before amount ih => exact within_charge ih amount

/-- A host whose charges go to the meter that it keeps. When it answers, it neither raises the limit nor
lowers the gas used. -/
structure Host.ChargesThrough (host : Host σ) (meter : σ → GasMeter) : Prop where
  charge : ∀ amount s,
    (meter s).charge amount = ((host.charge amount s).1, meter (host.charge amount s).2)
  limit : ∀ byte inputs s, (meter (host.external byte inputs s).2).limit ≤ (meter s).limit
  used : ∀ byte inputs s, (meter s).used ≤ (meter (host.external byte inputs s).2).used

namespace Host.ChargesThrough

theorem left_charge (through : host.ChargesThrough meter) {amount : UInt64}
    (charged : host.charge amount s = (.ok (), t)) : (meter t).left + amount.toNat ≤ (meter s).left := by
  apply GasMeter.left_charge
  rw [through.charge, charged]

theorem left_external (through : host.ChargesThrough meter) (byte : UInt8) (inputs : List Word) (s : σ) :
    (meter (host.external byte inputs s).2).left ≤ (meter s).left := by
  have limits := UInt64.le_iff_toNat_le.1 (through.limit byte inputs s)
  have more := UInt64.le_iff_toNat_le.1 (through.used byte inputs s)
  simp only [GasMeter.left]
  omega

@[reducible] def metered (through : host.ChargesThrough meter) : host.Metered where
  left s := (meter s).left
  left_charge _ _ _ := through.left_charge
  left_external := through.left_external

end Host.ChargesThrough

theorem Host.chargesThrough_basic : basic.ChargesThrough id where
  charge _ _ := rfl
  limit byte _ m := by
    simp only [basic]
    split <;> exact UInt64.le_refl _
  used byte _ m := by
    simp only [basic]
    split <;> exact UInt64.le_refl _

namespace Machine

theorem left_of_advance_next [metered : host.Metered] {n : Nat}
    (h : advance host c n ctx s = .next ctx' t) : n + metered.left t ≤ metered.left s := by
  induction n generalizing ctx' t with
  | zero =>
    cases h
    exact Nat.le_of_eq (Nat.zero_add _)
  | succ n ih =>
    obtain ⟨before, u, reached, stepped⟩ := Step.andThen_eq_next h
    have earlier := ih reached
    have lower := left_of_step_next stepped
    omega

/-- A run that is paid for out of a meter ends, with one step more than there is gas at the latest. -/
theorem gas_bounds_run (through : host.ChargesThrough meter) (c : Container) (limits : Limits) (s : σ) :
    ∃ outcome t,
      runFor host c ((meter s).remaining.toNat + 1) (.initial limits) s = some (outcome, t) := by
  rw [runFor_eq]
  cases reached : advance host c ((meter s).remaining.toNat + 1) (.initial limits) s with
  | next ctx t =>
    let _ := through.metered
    have paid : _ + (meter t).left ≤ (meter s).left := left_of_advance_next reached
    have enough := (meter s).left_le_remaining
    omega
  | exit how ctx t => exact ⟨_, _, rfl⟩
  | halt reason ctx t => exact ⟨_, _, rfl⟩

end Machine

def Container.endless : Container :=
  .assemble #[⟨⟨0, 0, 0⟩, #[0x5C, 0xFF, 0xFD]⟩] []

/-- Ten gas allow for five jumps, and eleven steps for any program. -/
theorem gas_bounds_endless :
    ∃ outcome t, Machine.runFor Host.basic .endless 11 (.initial .default) (.full 10)
      = some (outcome, t) :=
  Machine.gas_bounds_run Host.chargesThrough_basic .endless .default (.full 10)

end EvmObject
