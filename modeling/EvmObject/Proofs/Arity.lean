import EvmObject.Proofs.CallBracket
import EvmObject.Proofs.CallRoom
import EvmObject.Proofs.StraightLine
/-!
The table row of an instruction suffices. What it says of words taken and words left decides, with the floor
and the limit, whether the machine halts for want of words or of room. Where it does not, nothing fails that
the instruction does with the data stack. Main statement: `arity_suffices`.
-/
namespace EvmObject

variable {σ : Type} {host : Host σ} {c : Container} {running : CodeSection} {instr : Instruction}
  {ctx ctx' : Context} {s t : σ} {limits : Limits} {reason : Halt}

namespace Context

/-- The inputs of an opcode can be handed to a host, and any results in the right count be taken over. -/
def Hands (ctx : Context) (info : OpcodeInfo) : Prop :=
  ∃ inputs left, ctx.stack.popMany ctx.floor info.inputs = .ok (inputs, left) ∧
    inputs.length = info.inputs ∧
    ∀ results : List Word, results.length = info.outputs → ∃ stack, left.pushAll results = .ok stack

/-- All that an instruction does with the data stack goes through. One that only moves words reads and
replaces as many as its table row says. -/
def Serves (ctx : Context) : Instruction → Prop
  | .stack op => ∃ left after, op.apply ctx.floor ctx.stack = .ok left ∧
      op.effect? (ctx.stack.words.take op.opcode.info.inputs) = some after ∧
      after.length = op.opcode.info.outputs ∧
      left.words = after ++ ctx.stack.words.drop op.opcode.info.inputs
  | .rjumpi _ | .rjumpv _ => ∃ w left, ctx.stack.pop ctx.floor = .ok (w, left)
  | .finish how => ctx.Hands (Instruction.finish how).info
  | .delegated op => ctx.Hands (Instruction.delegated op).info
  | _ => True

end Context

theorem StackOp.apply_of_accommodates {op : StackOp} {floor : Nat} {stack : DataStack}
    (fits : stack.accommodates floor op.opcode.info.inputs op.opcode.info.outputs = .ok ()) :
    ∃ left after, op.apply floor stack = .ok left ∧
      op.effect? (stack.words.take op.opcode.info.inputs) = some after ∧
      after.length = op.opcode.info.outputs ∧
      left.words = after ++ stack.words.drop op.opcode.info.inputs := by
  have enough := (DataStack.accommodates_eq_ok.1 fits).1
  rw [DataStack.visible, stack.height_eq] at enough
  have taken : (stack.words.take op.opcode.info.inputs).length = op.opcode.info.inputs := by
    rw [List.length_take]
    omega
  cases applied : op.apply floor stack with
  | error fault => exact absurd applied (apply_ne_error fits)
  | ok left =>
    cases worked : op.effect? (stack.words.take op.opcode.info.inputs) with
    | none =>
      have few := effect?_eq_none.1 worked
      rw [taken, op.arity_eq] at few
      exact absurd few (Nat.lt_irrefl _)
    | some after =>
      have whole := effect?_append worked (stack.words.drop op.opcode.info.inputs)
      rw [List.take_append_drop, effect?_of_apply applied] at whole
      have count := length_effect worked
      rw [taken, op.arity_eq] at count
      exact ⟨left, after, rfl, rfl, by omega, Option.some.inj whole⟩

namespace Context

theorem hands_of_accommodates {info : OpcodeInfo}
    (fits : ctx.stack.accommodates ctx.floor info.inputs info.outputs = .ok ()) : ctx.Hands info := by
  obtain ⟨enough, room⟩ := DataStack.accommodates_eq_ok.1 fits
  obtain ⟨inputs, left, taken⟩ := DataStack.popMany_of_le enough
  obtain ⟨same, fewer⟩ := DataStack.height_popMany taken
  refine ⟨inputs, left, taken, (DataStack.popMany_eq_ok.1 taken).2.1, ?_⟩
  intro results count
  exact DataStack.pushAll_of_room (by omega)

theorem serves_of_accommodates
    (fits : ctx.stack.accommodates ctx.floor instr.info.inputs instr.info.outputs = .ok ()) :
    ctx.Serves instr := by
  cases instr with
  | stack op => exact StackOp.apply_of_accommodates fits
  | rjumpi offset => exact DataStack.pop_of_le (DataStack.accommodates_eq_ok.1 fits).1
  | rjumpv table => exact DataStack.pop_of_le (DataStack.accommodates_eq_ok.1 fits).1
  | finish how => exact hands_of_accommodates fits
  | delegated op => exact hands_of_accommodates fits
  | _ => trivial

end Context

namespace Machine

/-- The step that begins here fails, and it is the machine that says so and not its host. -/
def Raises (host : Host σ) (c : Container) (ctx : Context) (s : σ) (reason : Halt) : Prop :=
  (∃ ctx' t, step host c ctx s = .halt reason ctx' t) ∧ ¬ Refusal host c ctx s reason

theorem raises_iff_accommodates (live : 0 < ctx.returns.depth) (here : ctx.At c running instr)
    (own : instr.isTransfer = false) (fault : reason.isStackFault) :
    Raises host c ctx s reason ↔
      ctx.stack.accommodates ctx.floor instr.info.inputs instr.info.outputs = .error reason := by
  constructor
  · rintro ⟨⟨ctx', t, halted⟩, unrefused⟩
    obtain refused | ⟨running', instr', there, failed⟩ := unready_of_stackFault live fault halted
    · exact absurd refused unrefused
    · obtain ⟨rfl, rfl⟩ := here.unique there
      rwa [ready_eq_accommodates own] at failed
  · intro few
    have failed : ready c running.type instr instr.info ctx = .error reason := by
      rwa [ready_eq_accommodates own]
    refine ⟨⟨ctx, s, step_eq_halt here failed s⟩, ?_⟩
    intro refused
    cases refused with
    | charge there checked _ =>
      obtain ⟨rfl, rfl⟩ := here.unique there
      nomatch checked.symm.trans failed
    | external there checked _ _ _ _ =>
      obtain ⟨rfl, rfl⟩ := here.unique there
      nomatch checked.symm.trans failed

theorem height_of_step (here : ctx.At c running instr) (own : instr.isTransfer = false)
    (stepped : step host c ctx s = .next ctx' t) :
    ctx'.stack.height + instr.info.inputs = ctx.stack.height + instr.info.outputs := by
  obtain ⟨running', instr', there, _, moved⟩ := step_next stepped
  obtain ⟨rfl, rfl⟩ := here.unique there
  cases moved with
  | along stays known landed same heights => exact heights
  | call calls =>
    cases calls
    nomatch own
  | back comesBack =>
    cases comesBack
    nomatch own

/-- In every run an instruction that is no call and no return halts for want of words just if its table row
takes more than are above the floor, and for want of room just if otherwise the row leaves more than the limit.
If neither, all that it does with the data stack goes through, and a step that goes on leaves as many words
as the row says. -/
theorem arity_suffices (host : Host σ) (c : Container) (limits : Limits) (s : σ) {n : Nat}
    (reached : advance host c n (.initial limits) s = .next ctx t)
    (here : ctx.At c running instr) (own : instr.isTransfer = false) :
    ctx.floor ≤ ctx.stack.height ∧
    (∀ required available, Raises host c ctx t (.stackUnderflow required available) ↔
      ctx.stack.height - ctx.floor < instr.info.inputs ∧ required = instr.info.inputs ∧
        available = ctx.stack.height - ctx.floor) ∧
    (∀ limit, Raises host c ctx t (.stackOverflow limit) ↔
      instr.info.inputs ≤ ctx.stack.height - ctx.floor ∧
        limits.stackLimit < ctx.stack.height - instr.info.inputs + instr.info.outputs ∧
        limit = limits.stackLimit) ∧
    (instr.info.inputs ≤ ctx.stack.height - ctx.floor →
      ctx.stack.height - instr.info.inputs + instr.info.outputs ≤ limits.stackLimit → ctx.Serves instr) ∧
    ∀ ctx' u, step host c ctx t = .next ctx' u → ctx.floor + instr.info.inputs ≤ ctx.stack.height ∧
      ctx'.stack.height = ctx.stack.height - instr.info.inputs + instr.info.outputs := by
  have grounded : ctx.Grounded :=
    invariant_of_advance Context.Grounded.transition (Context.grounded_initial limits) reached
  have limited : ctx.Limited limits :=
    invariant_of_advance Context.Limited.transition (.initial limits) reached
  have live := grounded.depth_pos
  have low := grounded.floor_le
  refine ⟨low, ?_, ?_, ?_, ?_⟩
  · intro required available
    rw [raises_iff_accommodates live here own rfl, DataStack.accommodates_eq_error]
    simp [DataStack.visible]
  · intro limit
    rw [raises_iff_accommodates live here own rfl, DataStack.accommodates_eq_error, limited.stack]
    simp [DataStack.visible]
  · intro enough room
    exact Context.serves_of_accommodates (DataStack.accommodates_eq_ok.2 ⟨enough, limited.stack ▸ room⟩)
  · intro ctx' u stepped
    have heights := height_of_step here own stepped
    obtain ⟨running', instr', there, checked, _⟩ := step_next stepped
    obtain ⟨rfl, rfl⟩ := here.unique there
    have enough := (ready_arity checked).1
    omega

/-- Where there is room for one word, the second one that the relay puts down is too much. -/
theorem arity_relay :
    Raises .basic .relay ⟨0, 2, ⟨1, [7], 1, rfl⟩, .initial 1⟩ ⟨100, 3⟩ (.stackOverflow 1) := by
  have reached : advance Host.basic .relay 1 (.initial ⟨1, 1, 100⟩) (.full 100)
      = .next ⟨0, 2, ⟨1, [7], 1, rfl⟩, .initial 1⟩ ⟨100, 3⟩ := by decide +kernel
  have here : Context.At .relay ⟨0, 2, ⟨1, [7], 1, rfl⟩, .initial 1⟩
      ⟨⟨0, 0, 2⟩, #[0x60, 7, 0x60, 9, 0xB0, 0, 1, 0x50, 0x00]⟩ (.stack (.push ⟨[9], by decide⟩)) :=
    ⟨rfl, by decide +kernel⟩
  obtain ⟨_, _, overflow, _⟩ := arity_suffices .basic .relay ⟨1, 1, 100⟩ (.full 100) reached here rfl
  exact (overflow 1).2 ⟨by decide, by decide, rfl⟩

end Machine
end EvmObject
