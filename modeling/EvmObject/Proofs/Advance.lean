import EvmObject.Host.GasMeter
import EvmObject.Machine.Run
/-!
Runs counted in steps: `advance` tells what a run has come to after so many of them. Main statements:
`advance_induction`, by which a property that every step keeps holds all along a run, and
`runFor_eq`, by which the outcome of a bounded run is that of the step it has come to.
-/
namespace EvmObject

variable {σ : Type}

namespace Step

def ctx : Step σ → Context
  | next ctx _ => ctx
  | exit _ ctx _ => ctx
  | halt _ ctx _ => ctx

def state : Step σ → σ
  | next _ s => s
  | exit _ _ s => s
  | halt _ _ s => s

def andThen (r : Step σ) (onward : Context → σ → Step σ) : Step σ :=
  match r with
  | next ctx s => onward ctx s
  | exit how ctx s => exit how ctx s
  | halt reason ctx s => halt reason ctx s

def outcome? (host : Host σ) : Step σ → Option (Outcome × σ)
  | next _ _ => none
  | exit how ctx s => some (.ofExit host how ctx s, s)
  | halt reason ctx s => some (.ofHalt reason ctx, s)

theorem andThen_next (r : Step σ) : r.andThen .next = r := by
  cases r <;> rfl

theorem andThen_assoc (r : Step σ) (f g : Context → σ → Step σ) :
    (r.andThen f).andThen g = r.andThen fun ctx s => (f ctx s).andThen g := by
  cases r <;> rfl

theorem andThen_eq_next {r : Step σ} {f : Context → σ → Step σ} {ctx : Context} {s : σ}
    (h : r.andThen f = .next ctx s) : ∃ before t, r = .next before t ∧ f before t = .next ctx s := by
  cases r with
  | next before t => exact ⟨before, t, rfl, h⟩
  | _ => nomatch h

end Step

namespace Machine

/-- What `n` steps come to, or fewer where the run ends before. -/
def advance (host : Host σ) (c : Container) : (n : Nat) → Context → σ → Step σ
  | 0, ctx, s => .next ctx s
  | n + 1, ctx, s => (advance host c n ctx s).andThen (step host c)

variable {host : Host σ} {c : Container} {ctx ctx' : Context} {s t : σ}

theorem advance_add (m n : Nat) (ctx : Context) (s : σ) :
    advance host c (m + n) ctx s = (advance host c m ctx s).andThen (advance host c n) := by
  induction n with
  | zero => exact (Step.andThen_next _).symm
  | succ n ih =>
    change (advance host c (m + n) ctx s).andThen _ = _
    rw [ih, Step.andThen_assoc]
    rfl

theorem advance_one (ctx : Context) (s : σ) : advance host c 1 ctx s = step host c ctx s := rfl

/-- What holds before the first step and is kept by each step that is made holds all along. -/
theorem advance_induction {P : Step σ → Prop} (start : P (.next ctx s))
    (kept : ∀ ctx s, P (.next ctx s) → P (step host c ctx s)) (n : Nat) :
    P (advance host c n ctx s) := by
  induction n with
  | zero => exact start
  | succ n ih =>
    rw [advance]
    generalize advance host c n ctx s = reached at ih
    cases reached with
    | next before t => exact kept before t ih
    | _ => exact ih

theorem advance_over {n : Nat} (ended : ∀ after t, advance host c n ctx s ≠ .next after t) :
    ∃ m before u, advance host c m ctx s = .next before u ∧
      advance host c n ctx s = step host c before u := by
  induction n with
  | zero => exact absurd rfl (ended ctx s)
  | succ n ih =>
    rw [advance] at ended ⊢
    cases reached : advance host c n ctx s with
    | next before u => exact ⟨n, before, u, reached, rfl⟩
    | exit how before u => simpa [reached, Step.andThen] using ih
    | halt reason before u => simpa [reached, Step.andThen] using ih

theorem advance_halt {n : Nat} {reason : Halt} (h : advance host c n ctx s = .halt reason ctx' t) :
    ∃ m before u, advance host c m ctx s = .next before u ∧
      step host c before u = .halt reason ctx' t := by
  have ended : ∀ after u, advance host c n ctx s ≠ .next after u := by simp [h]
  obtain ⟨m, before, u, going, last⟩ := advance_over ended
  exact ⟨m, before, u, going, last.symm.trans h⟩

theorem advance_succ {n : Nat} (h : advance host c n ctx s = .next ctx' t) :
    advance host c (n + 1) ctx s = step host c ctx' t := by
  rw [advance, h]
  rfl

theorem runFor_eq (host : Host σ) (c : Container) (n : Nat) (ctx : Context) (s : σ) :
    runFor host c n ctx s = (advance host c n ctx s).outcome? host := by
  induction n generalizing ctx s with
  | zero => rfl
  | succ n ih =>
    rw [Nat.add_comm, advance_add, advance_one, Nat.add_comm, runFor]
    cases step host c ctx s with
    | next ctx s => exact ih ctx s
    | _ => rfl

theorem runFor_of_le {m n : Nat} {r : Outcome × σ} (ended : runFor host c m ctx s = some r)
    (le : m ≤ n) : runFor host c n ctx s = some r := by
  obtain ⟨k, rfl⟩ := Nat.le.dest le
  rw [runFor_eq] at ended ⊢
  rw [advance_add]
  cases reached : advance host c m ctx s with
  | next after t =>
    rw [reached] at ended
    nomatch ended
  | _ => rwa [reached] at ended

theorem runFor_run (host : Host σ) [metered : host.Metered] (c : Container) (limits : Limits) (s : σ) :
    runFor host c (metered.left s + 1) (.initial limits) s = some (run host c limits s) :=
  (Option.some_get _).symm

theorem run_of_runFor [host.Metered] {limits : Limits} {n : Nat} {r : Outcome × σ}
    (ended : runFor host c n (.initial limits) s = some r) : run host c limits s = r := by
  have longer := runFor_of_le (runFor_run host c limits s) (Nat.le_max_left _ n)
  exact Option.some.inj (longer.symm.trans (runFor_of_le ended (Nat.le_max_right _ n)))

theorem halted_step {n index pc depth : Nat} {reason : Halt}
    (ended : runFor host c n ctx s = some (.exceptionalHalt reason index pc depth, t)) :
    ∃ m before u after, advance host c m ctx s = .next before u ∧
      step host c before u = .halt reason after t ∧ after.index = index ∧ after.pc = pc := by
  rw [runFor_eq] at ended
  cases reached : advance host c n ctx s with
  | next after u =>
    rw [reached] at ended
    nomatch ended
  | exit how after u =>
    rw [reached] at ended
    cases how <;> nomatch ended
  | halt fault after u =>
    rw [reached] at ended
    cases ended
    obtain ⟨m, before, u, going, halted⟩ := advance_halt reached
    exact ⟨m, before, u, after, going, halted, rfl, rfl⟩

theorem failed_step {n : Nat} {outcome : Outcome} {reason : Halt}
    (ended : runFor host c n ctx s = some (outcome, t)) (failed : outcome.reason? = some reason) :
    ∃ m before u after, advance host c m ctx s = .next before u ∧
      step host c before u = .halt reason after t := by
  cases outcome with
  | exceptionalHalt fault index pc depth =>
    cases failed
    obtain ⟨m, before, u, after, going, halted, _⟩ := halted_step ended
    exact ⟨m, before, u, after, going, halted⟩
  | _ => nomatch failed

/-- Each of the first `n` steps begins with more than `depth` frames on the return stack, so that
none before the last takes off the frame with only `depth` others below it. -/
def StaysAbove (host : Host σ) (c : Container) (depth n : Nat) (ctx : Context) (s : σ) : Prop :=
  ∀ m < n, depth < (advance host c m ctx s).ctx.returns.depth

theorem StaysAbove.mono {depth m n : Nat} (h : StaysAbove host c depth n ctx s) (le : m ≤ n) :
    StaysAbove host c depth m ctx s :=
  fun i less => h i (Nat.lt_of_lt_of_le less le)

end Machine

deriving instance DecidableEq for Step

/-- The entry puts down two words and calls the second function, which calls the third, which negates
the upper one. -/
def Container.relay : Container :=
  .assemble
    #[⟨⟨0, 0, 2⟩, #[0x60, 7, 0x60, 9, 0xB0, 0, 1, 0x50, 0x00]⟩,
      ⟨⟨1, 1, 1⟩, #[0xB0, 0, 2, 0xB1]⟩,
      ⟨⟨1, 1, 1⟩, #[0x19, 0xB1]⟩]
    []

/-- The second function of the relay is about to start, above a word out of its reach. -/
def Context.relayed (w : Word) : Context :=
  ⟨1, 0, ⟨1024, [9, w], 2, rfl⟩, ⟨1024, [⟨0, 7, 1⟩, .sentinel], 2, rfl⟩⟩

end EvmObject
