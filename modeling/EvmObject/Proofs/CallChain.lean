import EvmObject.Proofs.CallBracket
import EvmObject.Proofs.History
import EvmObject.Proofs.Validity
/-!
The return stack tells how the running function was reached: above the sentinel, each frame was pushed by a
call that stands just before the place it goes back to, and that calls the function running in it. Main
statement: `return_stack_genuine`.
-/
namespace EvmObject

variable {σ : Type} {host : Host σ} {c : Container} {running : CodeSection} {instr : Instruction}
  {ctx ctx' : Context} {s t : σ} {how : Exit} {target : UInt16} {index k : Nat} {frames : List Frame}

def Container.CallEndsAt (c : Container) (index offset callee : Nat) : Prop :=
  ∃ running start target, c.sections[index]? = some running ∧ offset = start + 3 ∧
    running.code[start]? = some 0xB0 ∧ Instruction.decode running.code start = .ok (.callf target) ∧
    target.toNat = callee

/-- The calls by which the entry has come to the section at `index`, the last one first. -/
inductive Container.Chain (c : Container) : (index : Nat) → List Frame → Prop
  | entry : Chain c 0 [.sentinel]
  | call {callee : Nat} {f : Frame} {callers : List Frame} (site : c.CallEndsAt f.index f.offset callee)
    (rest : Chain c f.index callers) : Chain c callee (f :: callers)

namespace Context

/-- The section that runs in the frame with `k` others below it: where the frame above goes back to, and
in the top frame the present section. -/
def runningIn (ctx : Context) (k : Nat) : Nat :=
  match ctx.returns.frame? (k + 1) with
  | some above => above.index
  | none => ctx.index

/-- The sentinel is below all calls, and all other frames are of calls. -/
structure CalledThrough (c : Container) (ctx : Context) : Prop where
  bottom : ctx.returns.frame? 0 = some .sentinel
  entry : ctx.runningIn 0 = 0
  sites : ∀ k f, 0 < k → ctx.returns.frame? k = some f →
    c.CallEndsAt f.index f.offset (ctx.runningIn k)

end Context

theorem Instruction.stays_iff : instr.isTransfer = false ↔ instr.isCall = false ∧ instr ≠ .retf := by
  cases instr with
  | callf target => exact ⟨nofun, fun h => nomatch h.1⟩
  | retf => exact ⟨nofun, fun h => absurd rfl h.2⟩
  | _ => exact ⟨fun _ => ⟨rfl, nofun⟩, fun _ => rfl⟩

theorem Container.callEndsAt (here : ctx.At c running (.callf target)) :
    c.CallEndsAt ctx.index (ctx.pc + 3) target.toNat := by
  obtain ⟨opcode, _⟩ := cons_prefix_drop.1 (Instruction.decode_iff.1 here.decoded)
  rw [Array.getElem?_toList] at opcode
  exact ⟨running, ctx.pc, target, here.found, rfl, opcode, here.decoded, rfl⟩

theorem Context.chain_reverse (ctx : Context) :
    ctx.chain.reverse = ctx.returns.frames.reverse.map Frame.index ++ [ctx.index] := by
  simp [chain]

theorem Context.runningIn_eq (within : k < ctx.returns.depth) :
    ctx.chain.reverse[k + 1]? = some (ctx.runningIn k) := by
  rw [chain_reverse, runningIn, ReturnStack.frame?]
  rw [ReturnStack.depth_eq] at within
  by_cases top : k + 1 < ctx.returns.frames.length
  · rw [List.getElem?_append_left (by simpa using top)]
    simp [top]
  · rw [List.getElem?_append_right (by simp; omega)]
    have last : k + 1 = ctx.returns.frames.length := by omega
    simp [last]

namespace Container.Chain

theorem bottom (h : c.Chain index frames) : frames.reverse[0]? = some .sentinel := by
  induction h with
  | entry => rfl
  | call site rest ih =>
    rw [List.reverse_cons, List.getElem?_append_left, ih]
    exact (List.getElem?_eq_some_iff.1 ih).1

theorem first (h : c.Chain index frames) :
    (frames.reverse.map Frame.index ++ [index])[1]? = some 0 := by
  induction h with
  | entry => rfl
  | @call callee f callers site rest ih =>
    have inside := (List.getElem?_eq_some_iff.1 ih).1
    rw [List.reverse_cons, List.map_append, List.map_singleton, List.getElem?_append_left inside, ih]

theorem site (h : c.Chain index frames) {f : Frame} (above : 0 < k) (found : frames.reverse[k]? = some f) :
    ∃ callee, (frames.reverse.map Frame.index ++ [index])[k + 1]? = some callee ∧
      c.CallEndsAt f.index f.offset callee := by
  induction h with
  | entry =>
    have inside := (List.getElem?_eq_some_iff.1 found).1
    simp at inside
    omega
  | @call callee g callers site rest ih =>
    rw [List.reverse_cons] at found ⊢
    rw [List.map_append, List.map_singleton]
    by_cases top : k < callers.length
    · rw [List.getElem?_append_left (by simpa using top)] at found
      rw [List.getElem?_append_left (by simpa using top)]
      exact ih found
    · have inside := (List.getElem?_eq_some_iff.1 found).1
      have last : k = callers.length := by
        simp at inside
        omega
      subst last
      simp at found
      subst found
      exact ⟨callee, by simp, site⟩

theorem tail {f : Frame} {callers : List Frame} (h : c.Chain index (f :: callers)) (more : callers ≠ []) :
    c.Chain f.index callers := by
  cases h with
  | entry => exact absurd rfl more
  | call site rest => exact rest

theorem ne_nil (h : c.Chain index frames) : frames ≠ [] := by
  cases h <;> nofun

theorem single {f : Frame} (h : c.Chain index [f]) : index = 0 ∧ f = .sentinel := by
  cases h with
  | entry => exact ⟨rfl, rfl⟩
  | call site rest => exact absurd rfl rest.ne_nil

theorem calledThrough (h : c.Chain ctx.index ctx.returns.frames) : ctx.CalledThrough c := by
  have named : ∀ k f, ctx.returns.frame? k = some f →
      (ctx.returns.frames.reverse.map Frame.index ++ [ctx.index])[k + 1]? = some (ctx.runningIn k) := by
    intro k f found
    have inside := (List.getElem?_eq_some_iff.1 found).1
    rw [List.length_reverse, ← ReturnStack.depth_eq] at inside
    rw [← ctx.chain_reverse]
    exact ctx.runningIn_eq inside
  refine ⟨h.bottom, ?_, ?_⟩
  · exact Option.some.inj ((named 0 _ h.bottom).symm.trans h.first)
  · intro k f above found
    obtain ⟨callee, called, site⟩ := h.site above found
    rwa [Option.some.inj ((named k f found).symm.trans called)]

end Container.Chain

/-- The run is within a chain of calls, unless it ended by going back from the entry. -/
def Step.Chained (c : Container) : Step σ → Prop
  | .next ctx _ | .halt _ ctx _ => c.Chain ctx.index ctx.returns.frames
  | .exit _ ctx _ => ctx.returns.frames = [] ∨ c.Chain ctx.index ctx.returns.frames

namespace Machine

theorem Transition.chain (h : c.Chain ctx.index ctx.returns.frames) (here : ctx.At c running instr)
    (moved : Transition c running instr ctx ctx') : c.Chain ctx'.index ctx'.returns.frames := by
  cases moved with
  | along => exact h
  | call calls found pushed =>
    subst calls
    rw [(ReturnStack.push_eq_ok.1 pushed).2.2]
    exact .call (Container.callEndsAt here) h
  | back comesBack popped more =>
    rw [(ReturnStack.pop?_eq_some.1 popped).2] at h
    exact h.tail (by simpa [ReturnStack.isEmpty] using more)

theorem step_chained (host : Host σ) (h : c.Chain ctx.index ctx.returns.frames) (s : σ) :
    (step host c ctx s).Chained c := by
  cases stepped : step host c ctx s with
  | next ctx' t =>
    obtain ⟨running, instr, here, _, moved⟩ := step_next stepped
    exact moved.chain h here
  | exit how ctx' t =>
    cases step_ending stepped with
    | past => exact .inr h
    | stay => exact .inr h
    | back here height popped last => exact .inl (List.isEmpty_iff.1 last)
  | halt reason ctx' t =>
    obtain ⟨stack, rfl⟩ := step_halt stepped
    exact h

theorem advance_chained (host : Host σ) (c : Container) (limits : Limits) (s : σ) (n : Nat) :
    (advance host c n (.initial limits) s).Chained c := by
  have start : (Step.next (Context.initial limits) s).Chained c := Container.Chain.entry
  exact advance_induction start (fun _ s h => step_chained host h s) n

theorem depth_step (host : Host σ) (c : Container) (ctx : Context) (s : σ) :
    (step host c ctx s).ctx.returns.depth + (done? host c ctx s).toList.count .retf
      = ctx.returns.depth + (done? host c ctx s).toList.countP Instruction.isCall := by
  cases stepped : step host c ctx s with
  | next ctx' t =>
    obtain ⟨running, instr, here, _, moved⟩ := step_next stepped
    rw [done?_next here stepped]
    cases moved with
    | along stays =>
      obtain ⟨calls, returns⟩ := Instruction.stays_iff.1 stays
      simp [calls, returns, Step.ctx]
    | call calls found pushed =>
      subst calls
      exact ReturnStack.depth_of_frames (ReturnStack.push_eq_ok.1 pushed).2.2
    | back comesBack popped =>
      subst comesBack
      exact (ReturnStack.depth_of_frames (ReturnStack.pop?_eq_some.1 popped).2).symm
  | exit how ctx' t =>
    cases step_ending stepped with
    | past found outside => rw [done?_past found outside]; rfl
    | @stay running instr _ _ here stays =>
      obtain ⟨calls, returns⟩ := Instruction.stays_iff.1 stays
      simp [done?_exit here stepped, calls, returns, Step.ctx]
    | back here height popped =>
      rw [done?_exit here stepped]
      exact (ReturnStack.depth_of_frames (ReturnStack.pop?_eq_some.1 popped).2).symm
  | halt reason ctx' t =>
    obtain ⟨stack, rfl⟩ := step_halt stepped
    simp [done?, stepped, Step.ctx]

theorem depth_history (host : Host σ) (c : Container) (n : Nat) (ctx : Context) (s : σ) :
    (advance host c n ctx s).ctx.returns.depth + (history host c n ctx s).count .retf
      = ctx.returns.depth + (history host c n ctx s).countP Instruction.isCall := by
  refine history_induction (P := fun r done =>
    r.ctx.returns.depth + done.count .retf = ctx.returns.depth + done.countP Instruction.isCall) rfl ?_ n
  intro before t done ih
  have one := depth_step host c before t
  rw [List.count_append, List.countP_append]
  change before.returns.depth + _ = _ at ih
  omega

theorem entry_return (chained : c.Chain ctx.index ctx.returns.frames)
    (emptied : (step host c ctx s).ctx.returns.depth = 0) :
    ctx.index = 0 ∧ ctx.returns.depth = 1 ∧ ∃ running returns t, ctx.At c running .retf ∧
      ctx.stack.height = running.type.outputs.toNat ∧
      step host c ctx s = .exit .success { ctx with returns } t := by
  have live : 0 < ctx.returns.depth := by
    rw [ReturnStack.depth_eq]
    exact List.length_pos_iff.2 chained.ne_nil
  cases stepped : step host c ctx s with
  | next ctx' t =>
    have onward := step_chained host chained s
    rw [stepped] at emptied onward
    rw [ReturnStack.depth_eq, List.length_eq_zero_iff] at emptied
    exact absurd emptied onward.ne_nil
  | halt reason ctx' t =>
    rw [stepped] at emptied
    obtain ⟨stack, rfl⟩ := step_halt stepped
    exact absurd emptied (Nat.ne_of_gt live)
  | exit how ctx' t =>
    rw [stepped] at emptied
    cases step_ending stepped with
    | past => exact absurd emptied (Nat.ne_of_gt live)
    | stay => exact absurd emptied (Nat.ne_of_gt live)
    | @back running frame returns here height popped last =>
      have shape := (ReturnStack.pop?_eq_some.1 popped).2
      rw [List.isEmpty_iff.1 last] at shape
      rw [shape] at chained
      obtain ⟨index, rfl⟩ := chained.single
      rw [Context.floor, ReturnStack.floor_of_frames shape, Frame.sentinel, Nat.zero_add] at height
      refine ⟨index, ?_, running, returns, t, here, height, rfl⟩
      rw [ReturnStack.depth_eq, shape, List.length_singleton]

theorem calledThrough_of_advance {limits : Limits} {n : Nat}
    (live : 0 < (advance host c n (.initial limits) s).ctx.returns.depth) :
    (advance host c n (.initial limits) s).ctx.CalledThrough c := by
  have chained := advance_chained host c limits s n
  cases reached : advance host c n (.initial limits) s with
  | next ctx t =>
    rw [reached] at chained
    exact Container.Chain.calledThrough chained
  | halt reason ctx t =>
    rw [reached] at chained
    exact Container.Chain.calledThrough chained
  | exit how ctx t =>
    rw [reached] at chained live
    obtain empty | chained := chained
    · simp [Step.ctx, ReturnStack.depth_eq, empty] at live
    · exact Container.Chain.calledThrough chained

theorem over_of_emptied {limits : Limits} {n : Nat}
    (emptied : (advance host c n (.initial limits) s).ctx.returns.depth = 0) :
    ∀ after t, advance host c n (.initial limits) s ≠ .next after t := by
  intro after t reached
  have chained := advance_chained host c limits s n
  rw [reached] at chained emptied
  rw [ReturnStack.depth_eq, List.length_eq_zero_iff] at emptied
  exact absurd emptied (Container.Chain.ne_nil chained)

/-- In every state of a run the return stack is that of the calls which have led there and not returned.
Only the return of the entry function takes the sentinel off; the run then ends at once with success, and
where the container is valid, without a word on the stack. -/
theorem return_stack_genuine (host : Host σ) (c : Container) (limits : Limits) (s : σ) (n : Nat) :
    (advance host c n (.initial limits) s).ctx.returns.depth
        + (history host c n (.initial limits) s).count .retf
      = 1 + (history host c n (.initial limits) s).countP Instruction.isCall ∧
    (0 < (advance host c n (.initial limits) s).ctx.returns.depth →
      (advance host c n (.initial limits) s).ctx.CalledThrough c) ∧
    ((advance host c n (.initial limits) s).ctx.returns.depth = 0 →
      ∃ m before u t running, advance host c m (.initial limits) s = .next before u ∧
        before.index = 0 ∧ before.returns.depth = 1 ∧ before.At c running .retf ∧
        advance host c (m + 1) (.initial limits) s
          = .exit .success (advance host c n (.initial limits) s).ctx t ∧
        runFor host c (m + 1) (.initial limits) s
          = some (.success (host.gasUsed t) (advance host c n (.initial limits) s).ctx.stack.words, t) ∧
        (c.validate = .ok () → (advance host c n (.initial limits) s).ctx.stack.words = [])) := by
  refine ⟨depth_history host c n (.initial limits) s, calledThrough_of_advance, fun emptied => ?_⟩
  obtain ⟨m, before, u, going, same⟩ := advance_over (over_of_emptied emptied)
  have chained := advance_chained host c limits s m
  rw [going] at chained
  rw [same] at emptied ⊢
  obtain ⟨index, depth, running, returns, t, here, height, ended⟩ := entry_return chained emptied
  have last := (advance_succ going).trans ended
  rw [ended]
  refine ⟨m, before, u, t, running, going, index, depth, here, last, ?_, ?_⟩
  · rw [runFor_eq, last]
    rfl
  · intro valid
    have outputs := ((Container.bounded_of_validate valid here.found).entry index).2
    rw [outputs, before.stack.height_eq] at height
    exact List.length_eq_zero_iff.1 height

end Machine
end EvmObject
