import EvmObject.Proofs.Isolation
import EvmObject.Proofs.Requests
/-!
Two runs that differ only in words below the floor of an active function, until it has returned. Main
statement: they ask the same of the host and go the same way (`frame_noninterference`).
-/
namespace EvmObject

variable {σ : Type} {host : Host σ} {c : Container} {floor : Nat} {low : List Word}
  {ctx ctx₁ ctx₂ : Context}

theorem ReturnStack.suffix_of_frame? {s : ReturnStack} {k : Nat} {f : Frame}
    (h : s.frame? k = some f) : ∃ below, below.length = k ∧ f :: below <:+ s.frames := by
  obtain ⟨within, _⟩ := List.getElem?_eq_some_iff.1 h
  refine ⟨(s.frames.reverse.take k).reverse, by simp at within ⊢; omega, ?_⟩
  have front : s.frames.reverse.take (k + 1) = s.frames.reverse.take k ++ [f] := by
    rw [List.take_add_one]
    exact congrArg (_ ++ Option.toList ·) h
  rw [← List.reverse_prefix, List.reverse_cons, List.reverse_reverse, ← front]
  exact List.take_prefix _ _

/-- Whoever cannot look below the floor cannot tell the two apart. -/
structure Context.AgreeAbove (floor : Nat) (a b : Context) : Prop where
  index : a.index = b.index
  pc : a.pc = b.pc
  returns : a.returns = b.returns
  limit : a.stack.limit = b.stack.limit
  height : a.stack.height = b.stack.height
  slots : a.stack.slots.drop floor = b.stack.slots.drop floor

/-- Both go on, end or fail in the same way, with the same state of the host. -/
inductive Step.Lockstep (floor : Nat) : Step σ → Step σ → Prop
  | next {a b : Context} (agree : a.AgreeAbove floor b) (s : σ) :
    Lockstep floor (.next a s) (.next b s)
  | exit (how : Exit) {a b : Context} (agree : a.AgreeAbove floor b) (s : σ) :
    Lockstep floor (.exit how a s) (.exit how b s)
  | halt (reason : Halt) {a b : Context} (agree : a.AgreeAbove floor b) (s : σ) :
    Lockstep floor (.halt reason a s) (.halt reason b s)

theorem Context.AgreeAbove.eq_rebase (h : ctx₁.AgreeAbove floor ctx₂)
    (fits : floor ≤ ctx₁.stack.height) : ctx₂ = ctx₁.rebase (ctx₂.stack.slots.take floor) := by
  have count : (ctx₂.stack.slots.take floor).length = floor := by
    rw [List.length_take, DataStack.length_slots, ← h.height, Nat.min_eq_left fits]
  have same_stack : ctx₂.stack = ctx₁.stack.rebase (ctx₂.stack.slots.take floor) := by
    refine DataStack.ext_slots h.limit.symm ?_
    rw [DataStack.slots_rebase, count, h.slots, List.take_append_drop]
  obtain ⟨index, pc, stack, returns⟩ := ctx₂
  obtain ⟨rfl, rfl, rfl⟩ : ctx₁.index = index ∧ ctx₁.pc = pc ∧ ctx₁.returns = returns :=
    ⟨h.index, h.pc, h.returns⟩
  exact congrArg (fun stack => { ctx₁ with stack }) same_stack

theorem Context.agreeAbove_rebase (fits : low.length ≤ ctx.stack.height) :
    ctx.AgreeAbove low.length (ctx.rebase low) where
  index := rfl
  pc := rfl
  returns := rfl
  limit := rfl
  height := (DataStack.height_rebase fits).symm
  slots := by simp

theorem Step.lockstep_rebase {r : Step σ} (fits : low.length ≤ r.ctx.stack.height) :
    r.Lockstep low.length (r.rebase low) := by
  have agree := Context.agreeAbove_rebase fits
  cases r with
  | next ctx s => exact .next agree s
  | exit how ctx s => exact .exit how agree s
  | halt reason ctx s => exact .halt reason agree s

namespace Machine

theorem requests_rebase {f : Frame} {below : List Frame} (orderly : ctx.Orderly)
    (there : f :: below <:+ ctx.returns.frames) (deep : low.length ≤ f.floor) {s : σ} {n : Nat}
    (stays : StaysAbove host c below.length n ctx s) :
    requests host c n (ctx.rebase low) s = requests host c n ctx s := by
  rw [requests, advance_rebase orderly there deep stays.recorded, Step.state_rebase, requests]

/-- As long as a function has not returned, two runs that differ only in words below its floor make
the same requests, go the same way and leave those words as they are. -/
theorem frame_noninterference (host : Host σ) (c : Container) {f : Frame} {k : Nat}
    (orderly : ctx₁.Orderly) (active : ctx₁.returns.frame? k = some f)
    (agree : ctx₁.AgreeAbove f.floor ctx₂) {s : σ} {n : Nat}
    (stays : StaysAbove host c k n ctx₁ s) :
    requests host c n ctx₁ s = requests host c n ctx₂ s ∧
      (advance host c n ctx₁ s).Lockstep f.floor (advance host c n ctx₂ s) ∧
      (advance host c n ctx₁ s).ctx.stack.slots.take f.floor = ctx₁.stack.slots.take f.floor ∧
      (advance host c n ctx₂ s).ctx.stack.slots.take f.floor = ctx₂.stack.slots.take f.floor := by
  obtain ⟨below, rfl, there⟩ := ReturnStack.suffix_of_frame? active
  have fits : f.floor ≤ ctx₁.stack.height :=
    Nat.le_trans (orderly.floor_of_mem (there.mem List.mem_cons_self)) orderly.floor_le
  obtain ⟨high, kept⟩ := advance_keeps orderly there stays
  -- The second run is the first one with other words at its bottom.
  have shape := agree.eq_rebase fits
  have count : (ctx₂.stack.slots.take f.floor).length = f.floor := by
    rw [List.length_take, DataStack.length_slots, ← agree.height, Nat.min_eq_left fits]
  generalize ctx₂.stack.slots.take f.floor = low at shape count ⊢
  subst shape
  have deep := Nat.le_of_eq count
  rw [requests_rebase orderly there deep stays, advance_rebase orderly there deep stays]
  refine ⟨rfl, count ▸ Step.lockstep_rebase (count.symm ▸ high), kept, ?_⟩
  rw [Step.ctx_rebase, Context.stack_rebase, DataStack.slots_rebase, ← count, List.take_left]

end Machine

theorem Context.orderly_relayed (w : Word) : (relayed w).Orderly where
  floors := by simp [relayed, Frame.sentinel]
  floor_le := Nat.le_succ 1

theorem Context.agreeAbove_relayed (v w : Word) : (relayed v).AgreeAbove 1 (relayed w) := by
  constructor <;> rfl

open Machine in
/-- The four steps up to and including the return. -/
theorem noninterference_relayed :
    StaysAbove Host.basic .relay 1 4 (.relayed 7) (.full 100) ∧
      requests Host.basic .relay 4 (.relayed 7) (.full 100)
        = requests Host.basic .relay 4 (.relayed 1000) (.full 100) ∧
      (advance Host.basic .relay 4 (.relayed 7) (.full 100)).Lockstep 1
        (advance Host.basic .relay 4 (.relayed 1000) (.full 100)) := by
  have stays : StaysAbove Host.basic .relay 1 4 (.relayed 7) (.full 100) := by
    unfold StaysAbove
    decide +kernel
  have active : (Context.relayed 7).returns.frame? 1 = some ⟨0, 7, 1⟩ := rfl
  obtain ⟨asked, together, _⟩ := frame_noninterference Host.basic .relay
    (Context.orderly_relayed 7) active (Context.agreeAbove_relayed 7 1000) stays
  exact ⟨stays, asked, together⟩

end EvmObject
