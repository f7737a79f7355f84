import EvmObject.Proofs.Encoding
import EvmObject.Proofs.Faults
/-!
When a call goes through. The headroom check takes what the callee declares off the limit and stops at zero.
From a stack with a word on it a call goes through only with room for all that the callee declares, but from
an empty stack a callee may declare more than the limit. Main statement: `call_passes_iff`.
-/
namespace EvmObject

variable {σ : Type} {host : Host σ} {c : Container} {running callee : CodeSection}
  {instr : Instruction} {ctx ctx' : Context} {s t : σ} {limits : Limits} {target : UInt16}

open Machine

/-- The stacks have the limits of the run, and the words are within theirs. -/
structure Context.Limited (limits : Limits) (ctx : Context) : Prop where
  stack : ctx.stack.limit = limits.stackLimit
  returns : ctx.returns.limit = limits.returnLimit
  height_le : ctx.stack.height ≤ limits.stackLimit

namespace Context.Limited

theorem initial (limits : Limits) : (Context.initial limits).Limited limits :=
  ⟨rfl, rfl, Nat.zero_le _⟩

theorem transition (h : ctx.Limited limits)
    (checked : ready c running.type instr instr.info ctx = .ok ())
    (moved : Transition c running instr ctx ctx') : ctx'.Limited limits := by
  have returns := moved.returns_limit.trans h.returns
  have limit := h.stack
  cases moved with
  | along stays known landed same heights =>
    have room := (ready_arity checked).2
    refine ⟨same.trans limit, returns, ?_⟩
    dsimp only
    omega
  | call => exact ⟨limit, returns, h.height_le⟩
  | back => exact ⟨limit, returns, h.height_le⟩

theorem ready_eq_callable (h : ctx.Limited limits) (running : CodeSection)
    (found : c.sections[target.toNat]? = some callee) :
    ready c running.type (.callf target) (Instruction.callf target).info ctx
      = callable ctx callee.type := by
  have within : ctx.stack.height ≤ ctx.stack.limit := h.stack ▸ h.height_le
  have fits : ctx.stack.accommodates ctx.floor (Instruction.callf target).info.inputs
      (Instruction.callf target).info.outputs = .ok () :=
    DataStack.accommodates_eq_ok.2 ⟨Nat.zero_le _, within⟩
  unfold ready
  rw [fits]
  dsimp only
  rw [found]

theorem ready_eq_returnable (h : ctx.Limited limits) (running : CodeSection) :
    ready c running.type .retf Instruction.retf.info ctx = returnable ctx running.type := by
  have within : ctx.stack.height ≤ ctx.stack.limit := h.stack ▸ h.height_le
  have fits : ctx.stack.accommodates ctx.floor Instruction.retf.info.inputs
      Instruction.retf.info.outputs = .ok () :=
    DataStack.accommodates_eq_ok.2 ⟨Nat.zero_le _, within⟩
  unfold ready
  rw [fits]

theorem ready_call (h : ctx.Limited limits) (running : CodeSection)
    (found : c.sections[target.toNat]? = some callee) :
    ready c running.type (.callf target) (Instruction.callf target).info ctx = .ok () ↔
      callee.type.inputs.toNat ≤ ctx.stack.visible ctx.floor ∧
        (ctx.stack.height + callee.type.maxStackHeight.toNat ≤ limits.stackLimit ∨
          ctx.stack.height = 0 ∧ limits.stackLimit < callee.type.maxStackHeight.toNat) ∧
        ctx.returns.depth < limits.returnLimit := by
  have within : ctx.stack.height ≤ ctx.stack.limit := h.stack ▸ h.height_le
  have headroom : ctx.stack.height ≤ ctx.stack.limit - callee.type.maxStackHeight.toNat ↔
      ctx.stack.height + callee.type.maxStackHeight.toNat ≤ limits.stackLimit ∨
        ctx.stack.height = 0 ∧ limits.stackLimit < callee.type.maxStackHeight.toNat := by
    rw [h.stack]
    omega
  have free : ctx.returns.isFull = false ↔ ctx.returns.depth < limits.returnLimit := by
    rw [ReturnStack.isFull_eq_false, h.returns]
  rw [h.ready_eq_callable running found, callable_eq_ok, headroom, free]

end Context.Limited

namespace Machine

theorem step_call (host : Host σ) (here : ctx.At c running (.callf target))
    (found : c.sections[target.toNat]? = some callee) (s : σ) :
    (ready c running.type (.callf target) (Instruction.callf target).info ctx = .ok () ∧
        (host.charge (Instruction.callf target).info.gas s).1 = .ok () ∧
        ∃ returns t, step host c ctx s = .next { ctx with index := target.toNat, pc := 0, returns } t) ∨
      (ready c running.type (.callf target) (Instruction.callf target).info ctx = .ok () →
        (host.charge (Instruction.callf target).info.gas s).1 ≠ .ok ()) ∧
        ∃ reason t, step host c ctx s = .halt reason ctx t := by
  cases checked : ready c running.type (.callf target) (Instruction.callf target).info ctx with
  | error reason => exact .inr ⟨nofun, reason, s, step_eq_halt here checked s⟩
  | ok passed =>
    cases charged : host.charge (Instruction.callf target).info.gas s with
    | mk answer t =>
      cases answer with
      | error reason => exact .inr ⟨nofun, reason, t, step_eq_unpaid here checked charged⟩
      | ok paid =>
        obtain ⟨_, _, free⟩ := (ready_eq_ok checked).2.1 target rfl
        have room := (callable_eq_ok.1 free).2.2
        refine .inl ⟨rfl, rfl, ?_⟩
        rw [step_eq_perform here checked charged]
        simp [perform, call, found, ReturnStack.push, room]

/-- In every run a call starts the callee just if its arguments are there, the headroom check lets it, a frame
is free and the host accepts the charge. Otherwise it fails where it stands. -/
theorem call_passes_iff (host : Host σ) (c : Container) (limits : Limits) (s : σ) {n : Nat}
    (reached : advance host c n (.initial limits) s = .next ctx t)
    (here : ctx.At c running (.callf target))
    (found : c.sections[target.toNat]? = some callee) :
    ((∃ ctx' u, step host c ctx t = .next ctx' u ∧ ctx'.index = target.toNat ∧ ctx'.pc = 0) ↔
      callee.type.inputs.toNat ≤ ctx.stack.visible ctx.floor ∧
        (ctx.stack.height + callee.type.maxStackHeight.toNat ≤ limits.stackLimit ∨
          ctx.stack.height = 0 ∧ limits.stackLimit < callee.type.maxStackHeight.toNat) ∧
        ctx.returns.depth < limits.returnLimit ∧
        (host.charge (Instruction.callf target).info.gas t).1 = .ok ()) ∧
      ((∃ ctx' u, step host c ctx t = .next ctx' u ∧ ctx'.index = target.toNat ∧ ctx'.pc = 0) ∨
        ∃ reason u, step host c ctx t = .halt reason ctx u) := by
  have limited : ctx.Limited limits :=
    invariant_of_advance Context.Limited.transition (.initial limits) reached
  have checks := limited.ready_call running found
  obtain ⟨checked, paid, returns, u, started⟩ | ⟨stopped, reason, u, halted⟩ :=
    step_call host here found t
  · obtain ⟨arguments, headroom, frame⟩ := checks.1 checked
    have passes : ∃ ctx' u, step host c ctx t = .next ctx' u ∧ ctx'.index = target.toNat ∧ ctx'.pc = 0 :=
      ⟨_, u, started, rfl, rfl⟩
    exact ⟨⟨fun _ => ⟨arguments, headroom, frame, paid⟩, fun _ => passes⟩, .inl passes⟩
  · refine ⟨⟨?_, ?_⟩, .inr ⟨reason, u, halted⟩⟩
    · rintro ⟨ctx', v, passed, _⟩
      nomatch passed.symm.trans halted
    · rintro ⟨arguments, headroom, frame, paid⟩
      exact absurd paid (stopped (checks.2 ⟨arguments, headroom, frame⟩))

end Machine

/-- The entry calls a function that declares ten words and leaves none. -/
def Container.loft : Container :=
  .assemble #[⟨⟨0, 0, 0⟩, #[0xB0, 0, 1, 0x00]⟩, ⟨⟨0, 0, 10⟩, #[0xB1]⟩] []

namespace Machine

/-- Within ten words the function of the loft is called. -/
theorem call_passes_loft :
    ∃ ctx' u, step .basic .loft (.initial ⟨10, 2, 8⟩) (.full 8) = .next ctx' u ∧
      ctx'.index = 1 ∧ ctx'.pc = 0 := by
  have here : (Context.initial ⟨10, 2, 8⟩).At .loft ⟨⟨0, 0, 0⟩, #[0xB0, 0, 1, 0x00]⟩ (.callf 1) :=
    ⟨rfl, Instruction.decode_iff.2 (by decide)⟩
  have found : Container.loft.sections[(1 : UInt16).toNat]? = some ⟨⟨0, 0, 10⟩, #[0xB1]⟩ := rfl
  exact (call_passes_iff .basic .loft ⟨10, 2, 8⟩ (.full 8) (n := 0) rfl here found).1.2
    ⟨Nat.zero_le _, .inl (Nat.le_refl 10), by decide, rfl⟩

/-- Within five words it is called as well, although it declares more. -/
theorem call_passes_beyond :
    ¬ ∀ (c : Container) (limits : Limits) (m : GasMeter) (n : Nat) (ctx ctx' : Context) (t u : GasMeter)
      (running callee : CodeSection) (target : UInt16),
      advance .basic c n (.initial limits) m = .next ctx t → ctx.At c running (.callf target) →
      c.sections[target.toNat]? = some callee → step .basic c ctx t = .next ctx' u →
      ctx.stack.height + callee.type.maxStackHeight.toNat ≤ limits.stackLimit := by
  intro law
  have here : (Context.initial ⟨5, 2, 8⟩).At .loft ⟨⟨0, 0, 0⟩, #[0xB0, 0, 1, 0x00]⟩ (.callf 1) :=
    ⟨rfl, Instruction.decode_iff.2 (by decide)⟩
  have called : step .basic .loft (.initial ⟨5, 2, 8⟩) (.full 8)
      = .next ⟨1, 0, .empty 5, ⟨2, [⟨0, 3, 0⟩, .sentinel], 2, rfl⟩⟩ ⟨8, 5⟩ := by decide +kernel
  have room := law .loft ⟨5, 2, 8⟩ (.full 8) 0 _ _ _ _ _ ⟨⟨0, 0, 10⟩, #[0xB1]⟩ _ rfl here rfl called
  exact absurd room (by decide)

end Machine
end EvmObject
