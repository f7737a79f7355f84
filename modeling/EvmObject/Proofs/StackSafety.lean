import EvmObject.Proofs.Transition
/-!
The two stacks of a run stay within their limits and apart from each other: the floors of the active
functions grow toward the top of the return stack and never above the words there are.
-/
namespace EvmObject

variable {σ : Type} {host : Host σ} {c : Container} {running : CodeSection} {instr : Instruction}
  {ctx ctx' : Context} {s t : σ} {limits : Limits}

/-- Each function's floor is at or above its caller's, and the highest one is not above the words. -/
structure Context.Orderly (ctx : Context) : Prop where
  floors : ctx.returns.frames.Pairwise fun upper lower => lower.floor ≤ upper.floor
  floor_le : ctx.floor ≤ ctx.stack.height

/-- Moreover all functions were called, through others, by the entry. -/
structure Context.Grounded (ctx : Context) : Prop extends ctx.Orderly where
  bottom : ctx.returns.frames.getLast? = some .sentinel

/-- Moreover both stacks are within the limits. -/
structure Context.Safe (limits : Limits) (ctx : Context) : Prop extends ctx.Grounded where
  stack_limit : ctx.stack.limit = limits.stackLimit
  height_le : ctx.stack.height ≤ limits.stackLimit
  return_limit : ctx.returns.limit = limits.returnLimit
  depth_pos : 0 < ctx.returns.depth
  depth_le : ctx.returns.depth ≤ limits.returnLimit

namespace Machine

theorem ready_arity (h : ready c running.type instr instr.info ctx = .ok ()) :
    instr.info.inputs ≤ ctx.stack.height - ctx.floor ∧
      ctx.stack.height - instr.info.inputs + instr.info.outputs ≤ ctx.stack.limit :=
  DataStack.accommodates_eq_ok.1 (ready_eq_ok h).1

theorem ready_callf {target : UInt16} {callee : CodeSection}
    (h : ready c running.type instr instr.info ctx = .ok ()) (calls : instr = .callf target)
    (found : c.sections[target.toNat]? = some callee) :
    callee.type.inputs.toNat ≤ ctx.stack.height - ctx.floor := by
  obtain ⟨callee', found', callable⟩ := (ready_eq_ok h).2.1 target calls
  rw [found] at found'
  cases found'
  exact (callable_eq_ok.1 callable).1

theorem ready_retf (h : ready c running.type instr instr.info ctx = .ok ())
    (comesBack : instr = .retf) :
    ctx.stack.height = ctx.floor + running.type.outputs.toNat :=
  returnable_eq_ok.1 ((ready_eq_ok h).2.2 comesBack)

end Machine

open Machine

namespace Context

theorem Orderly.floor_of_mem (h : ctx.Orderly) {f : Frame} (member : f ∈ ctx.returns.frames) :
    f.floor ≤ ctx.floor := by
  have sorted := h.floors
  cases shape : ctx.returns.frames with
  | nil => simp [shape] at member
  | cons top rest =>
    rw [shape] at sorted member
    rw [floor, ReturnStack.floor_of_frames shape]
    obtain rfl | below := List.mem_cons.1 member
    · exact Nat.le_refl _
    · exact (List.pairwise_cons.1 sorted).1 f below

theorem Orderly.transition (h : ctx.Orderly)
    (checked : ready c running.type instr instr.info ctx = .ok ())
    (moved : Transition c running instr ctx ctx') : ctx'.Orderly := by
  have low := h.floor_le
  cases moved with
  | along stays known landed same heights =>
    have enough := (ready_arity checked).1
    refine ⟨h.floors, ?_⟩
    change ctx.floor ≤ _
    dsimp only
    omega
  | @call _ callee returns calls found pushed =>
    have enough := ready_callf checked calls found
    obtain ⟨_, _, shape⟩ := ReturnStack.push_eq_ok.1 pushed
    constructor
    · rw [shape, List.pairwise_cons]
      refine ⟨fun f member => ?_, h.floors⟩
      have := h.floor_of_mem member
      dsimp only
      omega
    · rw [floor, ReturnStack.floor_of_frames shape]
      exact Nat.sub_le _ _
  | @back frame returns comesBack popped more =>
    have exact_height := ready_retf checked comesBack
    obtain ⟨_, shape⟩ := ReturnStack.pop?_eq_some.1 popped
    have sorted := h.floors
    rw [shape, List.pairwise_cons] at sorted
    refine ⟨sorted.2, ?_⟩
    -- The words end just above the callee's floor, which is not below its caller's.
    cases below : returns.frames with
    | nil => simp [ReturnStack.isEmpty, below] at more
    | cons f rest =>
      have caller := sorted.1 f (by simp [below])
      rw [floor, ReturnStack.floor_of_frames shape] at exact_height
      rw [floor, ReturnStack.floor_of_frames below]
      dsimp only
      omega

theorem Grounded.transition (h : ctx.Grounded)
    (checked : ready c running.type instr instr.info ctx = .ok ())
    (moved : Transition c running instr ctx ctx') : ctx'.Grounded := by
  refine ⟨h.toOrderly.transition checked moved, ?_⟩
  have bottom := h.bottom
  cases moved with
  | along => exact bottom
  | call calls found pushed =>
    rw [(ReturnStack.push_eq_ok.1 pushed).2.2, List.getLast?_cons, bottom]
    rfl
  | @back frame returns comesBack popped more =>
    have some_left : returns.frames ≠ [] := by simpa [ReturnStack.isEmpty] using more
    rwa [(ReturnStack.pop?_eq_some.1 popped).2, List.getLast?_cons_of_ne_nil some_left] at bottom

theorem Grounded.depth_pos (h : ctx.Grounded) : 0 < ctx.returns.depth := by
  have bottom := h.bottom
  rw [ReturnStack.depth_eq]
  cases shape : ctx.returns.frames with
  | nil => simp [shape] at bottom
  | cons f rest => exact Nat.succ_pos _

theorem Safe.transition (h : ctx.Safe limits)
    (checked : ready c running.type instr instr.info ctx = .ok ())
    (moved : Transition c running instr ctx ctx') : ctx'.Safe limits := by
  have grounded := h.toGrounded.transition checked moved
  have depth_pos := grounded.depth_pos
  cases moved with
  | along stays known landed same heights =>
    obtain ⟨enough, room⟩ := ready_arity checked
    have stack_limit := h.stack_limit
    refine { h with toGrounded := grounded, stack_limit := same.trans stack_limit, height_le := ?_ }
    dsimp only
    omega
  | call calls found pushed =>
    obtain ⟨room, same, shape⟩ := ReturnStack.push_eq_ok.1 pushed
    have depth := ReturnStack.depth_of_frames shape
    have return_limit := same.trans h.return_limit
    refine { h with toGrounded := grounded, return_limit, depth_pos, depth_le := ?_ }
    dsimp only
    omega
  | back comesBack popped more =>
    obtain ⟨same, shape⟩ := ReturnStack.pop?_eq_some.1 popped
    have depth := ReturnStack.depth_of_frames shape
    have depth_le := h.depth_le
    have return_limit := same.trans h.return_limit
    refine { h with toGrounded := grounded, return_limit, depth_pos, depth_le := ?_ }
    dsimp only
    omega

theorem grounded_initial (limits : Limits) : (initial limits).Grounded where
  floors := List.pairwise_singleton _ _
  floor_le := Nat.le_refl 0
  bottom := rfl

theorem safe_initial (room : 1 ≤ limits.returnLimit) : (initial limits).Safe limits where
  toGrounded := grounded_initial limits
  stack_limit := rfl
  height_le := Nat.zero_le _
  return_limit := rfl
  depth_pos := Nat.one_pos
  depth_le := room

end Context

theorem invariant_of_advance_at {P : Context → Prop}
    (kept : ∀ {running instr ctx ctx'}, P ctx → ctx.At c running instr →
      ready c running.type instr instr.info ctx = .ok () → Transition c running instr ctx ctx' →
      P ctx')
    (start : P ctx) {n : Nat} (reached : advance host c n ctx s = .next ctx' t) : P ctx' := by
  have all : ∀ after t, advance host c n ctx s = .next after t → P after :=
    advance_induction (P := fun r => ∀ after t, r = .next after t → P after)
      (by rintro _ _ ⟨⟩; exact start)
      (fun before u holds after t stepped => by
        obtain ⟨running, instr, here, checked, moved⟩ := step_next stepped
        exact kept (holds before u rfl) here checked moved) n
  exact all ctx' t reached

theorem invariant_of_advance {P : Context → Prop}
    (kept : ∀ {running instr ctx ctx'}, P ctx →
      ready c running.type instr instr.info ctx = .ok () → Transition c running instr ctx ctx' →
      P ctx')
    (start : P ctx) {n : Nat} (reached : advance host c n ctx s = .next ctx' t) : P ctx' :=
  invariant_of_advance_at (fun h _ checked moved => kept h checked moved) start reached

/-- Before every step of every run within limits that leave room for the sentinel, the return stack
stands on the sentinel, is within its limit and has floors that grow toward its top, and the data
stack reaches up to the highest floor and not above its own limit. -/
theorem safe_of_advance (host : Host σ) (c : Container) (room : 1 ≤ limits.returnLimit) (s : σ)
    {n : Nat} (reached : advance host c n (.initial limits) s = .next ctx t) : ctx.Safe limits :=
  invariant_of_advance Context.Safe.transition (Context.safe_initial room) reached

/-- Three frames and two words, as many as the limits allow, in the innermost function of the relay. -/
theorem safe_relay :
    Context.Safe ⟨3, 3, 100⟩
      ⟨2, 1, ⟨3, [~~~9, 7], 2, rfl⟩, ⟨3, [⟨1, 3, 1⟩, ⟨0, 7, 1⟩, .sentinel], 3, rfl⟩⟩ :=
  safe_of_advance Host.basic .relay (by decide) (.full 100)
    (by decide +kernel : advance Host.basic .relay 5 _ _ = .next _ ⟨100, 19⟩)

end EvmObject
