import EvmObject.Proofs.Isolation
/-!
From a call to the matching return, with anything in between. Main statement: the callee's caller finds
its frames and its words as they were, and as many words more as the callee declares (`call_bracket`).
-/
namespace EvmObject

variable {σ : Type} {host : Host σ} {c : Container} {running callee : CodeSection}
  {instr : Instruction} {target : UInt16} {ctx ctx' : Context} {s t : σ} {limits : Limits}

/-- The section that is running and those that wait for a return, the last called first. -/
def Context.chain (ctx : Context) : List Nat := ctx.index :: ctx.returns.frames.map Frame.index

/-- The words that a function called here cannot reach. -/
def Context.unreached (ctx : Context) (callee : CodeType) : List Word :=
  ctx.stack.slots.take (ctx.stack.height - callee.inputs.toNat)

theorem Context.length_chain (ctx : Context) : ctx.chain.length = ctx.returns.depth + 1 := by
  rw [chain, List.length_cons, List.length_map, ReturnStack.depth_eq]

theorem Context.length_unreached (ctx : Context) (callee : CodeType) :
    (ctx.unreached callee).length = ctx.stack.height - callee.inputs.toNat := by
  rw [unreached, List.length_take, DataStack.length_slots, Nat.min_eq_left (Nat.sub_le _ _)]

namespace Machine

theorem step_callf (here : ctx.At c running (.callf target))
    (found : c.sections[target.toNat]? = some callee) (called : step host c ctx s = .next ctx' t) :
    callee.type.inputs.toNat ≤ ctx.stack.height - ctx.floor ∧
      ∃ returns : ReturnStack, returns.limit = ctx.returns.limit ∧
        returns.frames = ⟨ctx.index, ctx.pc + 3, ctx.stack.height - callee.type.inputs.toNat⟩
          :: ctx.returns.frames ∧
        ctx' = { ctx with index := target.toNat, pc := 0, returns } := by
  obtain ⟨running', instr', here', checked, moved⟩ := step_next called
  obtain ⟨rfl, rfl⟩ := here.unique here'
  refine ⟨ready_callf checked rfl found, ?_⟩
  cases moved with
  | along stays => nomatch stays
  | call calls found' pushed =>
    cases calls
    cases found.symm.trans found'
    obtain ⟨_, limit, shape⟩ := ReturnStack.push_eq_ok.1 pushed
    exact ⟨_, limit, shape, rfl⟩
  | back comesBack => nomatch comesBack

theorem step_lower (lower : (step host c ctx s).ctx.returns.depth < ctx.returns.depth) :
    ∃ frame returns, ctx.returns.pop? = some (frame, returns) ∧
      (step host c ctx s).ctx.returns = returns ∧
      (returns.isEmpty = true ∨ ∃ running t, ctx.At c running .retf ∧
        ctx.stack.height = ctx.floor + running.type.outputs.toNat ∧
        step host c ctx s
          = .next { ctx with index := frame.index, pc := frame.offset, returns } t) := by
  cases stepped : step host c ctx s with
  | next after t =>
    rw [stepped] at lower
    obtain ⟨running, instr, here, checked, moved⟩ := step_next stepped
    cases moved with
    | along => exact absurd lower (Nat.lt_irrefl _)
    | call calls found pushed =>
      have higher := ReturnStack.depth_of_frames (ReturnStack.push_eq_ok.1 pushed).2.2
      exact absurd lower (Nat.not_lt_of_le (higher ▸ Nat.le_succ _))
    | back comesBack popped more =>
      have height := ready_retf checked comesBack
      subst comesBack
      exact ⟨_, _, popped, rfl, .inr ⟨running, t, here, height, rfl⟩⟩
  | exit how after t =>
    rw [stepped] at lower
    obtain ⟨stack, rfl⟩ | ⟨frame, returns, popped, last, rfl⟩ := step_exit stepped
    · exact absurd lower (Nat.lt_irrefl _)
    · exact ⟨frame, returns, popped, rfl, .inl last⟩
  | halt reason after t =>
    rw [stepped] at lower
    obtain ⟨stack, rfl⟩ := step_halt stepped
    exact absurd lower (Nat.lt_irrefl _)

theorem chain_stays {lowest : List Nat} (there : lowest <:+ ctx.chain) {n : Nat}
    (stays : ∀ m ≤ n, lowest.length ≤ (advance host c m ctx s).ctx.returns.depth + 1)
    (reached : advance host c n ctx s = .next ctx' t) : lowest <:+ ctx'.chain := by
  induction n generalizing ctx' t with
  | zero =>
    cases reached
    exact there
  | succ n ih =>
    have high := stays (n + 1) (Nat.le_refl _)
    rw [reached] at high
    change lowest.length ≤ ctx'.returns.depth + 1 at high
    rw [← ctx'.length_chain] at high
    obtain ⟨before, u, earlier, stepped⟩ := Step.andThen_eq_next reached
    have still := ih (fun m le => stays m (by omega)) earlier
    obtain ⟨running, instr, _, _, moved⟩ := step_next stepped
    cases moved with
    | along => exact still
    | @call target callee returns calls found pushed =>
      have longer : Context.chain { before with index := target.toNat, pc := 0, returns }
          = target.toNat :: before.chain := by
        simp [Context.chain, (ReturnStack.push_eq_ok.1 pushed).2.2]
      exact longer ▸ still.trans (List.suffix_cons _ _)
    | @back frame returns comesBack popped more =>
      have shorter : before.chain = before.index ::
          Context.chain { before with index := frame.index, pc := frame.offset, returns } := by
        simp [Context.chain, (ReturnStack.pop?_eq_some.1 popped).2]
      rw [shorter, List.suffix_cons_iff] at still
      -- What was there is not the whole chain, for that would now be too short.
      obtain whole | rest := still
      · rw [whole, List.length_cons] at high
        exact absurd high (Nat.not_succ_le_self _)
      · exact rest

/-- Until a function has returned, the words below its floor and the frames below its own are there. -/
theorem callee_keeps {f : Frame} {below : List Frame} (orderly : ctx.Orderly)
    (top : ctx.returns.frames = f :: below) {n : Nat}
    (stays : StaysAbove host c below.length n ctx s) :
    ctx.stack.slots.take f.floor <+: (advance host c n ctx s).ctx.stack.slots ∧
      below <:+ (advance host c n ctx s).ctx.returns.frames := by
  have start : below.length ≤ ctx.returns.depth := by
    rw [ReturnStack.depth_eq, top]
    exact Nat.le_succ _
  constructor
  · rw [← (advance_keeps orderly (top ▸ List.suffix_rfl) stays).2]
    exact List.take_prefix _ _
  · exact frames_stay (top ▸ List.suffix_cons f below) (stays.depth_le start)

theorem active_stays {depth n : Nat} (start : ctx.returns.depth = depth + 1)
    (stays : StaysAbove host c depth (n + 1) ctx s)
    (reached : advance host c n ctx s = .next ctx' t) :
    ctx.returns.frames <:+ ctx'.returns.frames ∧ ctx.chain <:+ ctx'.chain := by
  have high : ∀ m ≤ n, ctx.returns.depth ≤ (advance host c m ctx s).ctx.returns.depth := by
    intro m le
    have above := stays m (Nat.lt_succ_of_le le)
    omega
  constructor
  · rw [ReturnStack.depth_eq] at high
    have there := frames_stay List.suffix_rfl high
    rwa [reached] at there
  · refine chain_stays List.suffix_rfl (fun m le => ?_) reached
    rw [Context.length_chain]
    exact Nat.succ_le_succ (high m le)

theorem active_eq {depth n : Nat} (start : ctx.returns.depth = depth + 1)
    (stays : StaysAbove host c depth (n + 1) ctx s)
    (reached : advance host c n ctx s = .next ctx' t)
    (level : ctx'.returns.depth = ctx.returns.depth) :
    ctx'.returns = ctx.returns ∧ ctx'.index = ctx.index := by
  obtain ⟨frames, callers⟩ := active_stays start stays reached
  have limit : ctx'.returns.limit = ctx.returns.limit :=
    invariant_of_advance (fun h _ moved => moved.returns_limit.trans h) rfl reached
  have same_frames := frames.eq_of_length (by
    rw [← ReturnStack.depth_eq, ← ReturnStack.depth_eq, level])
  have same_callers := callers.eq_of_length (by
    rw [Context.length_chain, Context.length_chain, level])
  exact ⟨ReturnStack.ext limit same_frames.symm, (List.cons.inj same_callers).1.symm⟩

theorem last_step {depth n : Nat} (above : depth < ctx.returns.depth)
    (stays : StaysAbove host c depth n ctx s)
    (returned : (advance host c n ctx s).ctx.returns.depth ≤ depth) :
    ∃ m before t, n = m + 1 ∧ advance host c m ctx s = .next before t ∧
      advance host c n ctx s = step host c before t ∧ depth < before.returns.depth := by
  cases n with
  | zero => exact absurd returned (Nat.not_le_of_lt above)
  | succ m =>
    have high := stays m (Nat.lt_succ_self m)
    rw [advance] at returned ⊢
    cases reached : advance host c m ctx s with
    | next before t =>
      rw [reached] at high
      exact ⟨m, before, t, rfl, reached, rfl, high⟩
    | exit how before t =>
      rw [reached] at high returned
      exact absurd returned (Nat.not_le_of_lt high)
    | halt reason before t =>
      rw [reached] at high returned
      exact absurd returned (Nat.not_le_of_lt high)

/-- The step after which a function has returned is a return at its own end, with the declared count of
words above its floor, and leads to where its frame says. -/
theorem matching_return {f : Frame} {below : ReturnStack}
    (top : ctx.returns.frames = f :: below.frames) (limits : ctx.returns.limit = below.limit)
    (waiting : 0 < below.depth) {n : Nat} (stays : StaysAbove host c below.depth n ctx s)
    (returned : (advance host c n ctx s).ctx.returns.depth ≤ below.depth) :
    ∃ m before running t u, n = m + 1 ∧ advance host c m ctx s = .next before t ∧
      before.index = ctx.index ∧ before.At c running .retf ∧
      before.stack.height = f.floor + running.type.outputs.toNat ∧
      advance host c n ctx s
        = .next { before with index := f.index, pc := f.offset, returns := below } u := by
  have start := ReturnStack.depth_of_frames top
  obtain ⟨m, before, t, rfl, reached, stepped, above⟩ := last_step (by omega) stays returned
  rw [stepped] at returned
  obtain ⟨frame, returns, popped, after, course⟩ := step_lower (Nat.lt_of_le_of_lt returned above)
  rw [after] at returned
  obtain ⟨limit, shape⟩ := ReturnStack.pop?_eq_some.1 popped
  have depth := ReturnStack.depth_of_frames shape
  -- Whatever was called in between has returned, so that the frame taken off is the one on top here.
  obtain ⟨same, index⟩ := active_eq start stays reached (by omega)
  rw [same] at limit shape
  obtain ⟨rfl, rest⟩ := List.cons.inj (shape.symm.trans top)
  obtain rfl : returns = below := ReturnStack.ext (limit.trans limits) rest
  obtain last | ⟨running, u, here, height, onward⟩ := course
  · rw [ReturnStack.isEmpty, List.isEmpty_iff_length_eq_zero, ← ReturnStack.depth_eq] at last
    omega
  · refine ⟨m, before, running, t, u, rfl, reached, index, here, ?_, stepped.trans onward⟩
    rwa [Context.floor, same, ReturnStack.floor_of_frames shape] at height

/-- After a call at any point of a run, and up to the matching return, the caller's frames are there and
so are its words, but for the callee's inputs. The matching return stands in the section called, leads to
just after the call and leaves as many words more as the callee declares. -/
theorem call_bracket (host : Host σ) (c : Container) {k : Nat} {start : σ}
    (reached : advance host c k (.initial limits) start = .next ctx s)
    (here : ctx.At c running (.callf target)) (found : c.sections[target.toNat]? = some callee)
    (called : step host c ctx s = .next ctx' t) :
    ctx'.stack = ctx.stack ∧ callee.type.inputs.toNat ≤ ctx.stack.height ∧
      ctx'.returns.frames = ⟨ctx.index, ctx.pc + 3, ctx.stack.height - callee.type.inputs.toNat⟩
        :: ctx.returns.frames ∧
      ∀ n, StaysAbove host c ctx.returns.depth n ctx' t →
        ctx.unreached callee.type <+: (advance host c n ctx' t).ctx.stack.slots ∧
        ctx.returns.frames <:+ (advance host c n ctx' t).ctx.returns.frames ∧
        ((advance host c n ctx' t).ctx.returns.depth ≤ ctx.returns.depth →
          ∃ m before u v outputs, n = m + 1 ∧ advance host c m ctx' t = .next before u ∧
            before.index = target.toNat ∧ before.At c callee .retf ∧
            advance host c n ctx' t = .next { ctx with pc := ctx.pc + 3, stack := before.stack } v ∧
            before.stack.slots = ctx.unreached callee.type ++ outputs ∧
            outputs.length = callee.type.outputs.toNat) := by
  have grounded := invariant_of_advance Context.Grounded.transition
    (Context.grounded_initial limits) reached
  obtain ⟨running', instr, here', checked, moved⟩ := step_next called
  have orderly := grounded.toOrderly.transition checked moved
  obtain ⟨enough, returns, limit, top, rfl⟩ := step_callf here found called
  refine ⟨rfl, by omega, top, fun n stays => ?_⟩
  have keeps : ∀ m ≤ n, ctx.unreached callee.type <+: (advance host c m _ t).ctx.stack.slots ∧
      ctx.returns.frames <:+ (advance host c m _ t).ctx.returns.frames :=
    fun m le => callee_keeps orderly top (ctx.returns.depth_eq ▸ stays.mono le)
  refine ⟨(keeps n (Nat.le_refl n)).1, (keeps n (Nat.le_refl n)).2, fun returned => ?_⟩
  obtain ⟨m, before, section', u, v, rfl, earlier, index, stands, height, after⟩ :=
    matching_return top limit grounded.depth_pos stays returned
  obtain rfl : callee = section' := by
    have same := stands.found
    rw [index] at same
    exact Option.some.inj (found.symm.trans same)
  have words := (keeps m (Nat.le_succ m)).1
  rw [earlier] at words
  obtain ⟨outputs, shape⟩ := words
  refine ⟨m, before, u, v, outputs, rfl, earlier, index, stands, after, shape.symm, ?_⟩
  have count := congrArg List.length shape
  change _ = before.stack.slots.length at count
  rw [List.length_append, Context.length_unreached, DataStack.length_slots] at count
  dsimp only at height count
  omega

/-- The outer call of the relay returns with the fourth step. -/
theorem call_bracket_relay : ∃ m before u v outputs, 4 = m + 1 ∧
    advance Host.basic .relay m (.relayed 7) ⟨100, 11⟩ = .next before u ∧
    before.index = 1 ∧
    before.At .relay ⟨⟨1, 1, 1⟩, #[0xB0, 0, 2, 0xB1]⟩ .retf ∧
    advance Host.basic .relay 4 (.relayed 7) ⟨100, 11⟩
      = .next ⟨0, 7, before.stack, .initial 1024⟩ v ∧
    before.stack.slots = [7] ++ outputs ∧ outputs.length = 1 := by
  have reached : advance Host.basic .relay 2 (.initial .default) (.full 100)
      = .next ⟨0, 4, ⟨1024, [9, 7], 2, rfl⟩, .initial 1024⟩ ⟨100, 6⟩ := by decide +kernel
  have called : step Host.basic .relay ⟨0, 4, ⟨1024, [9, 7], 2, rfl⟩, .initial 1024⟩ ⟨100, 6⟩
      = .next (.relayed 7) ⟨100, 11⟩ := by decide +kernel
  have stays : StaysAbove Host.basic .relay 1 4 (.relayed 7) ⟨100, 11⟩ := by
    unfold StaysAbove
    decide +kernel
  have returned : (advance Host.basic .relay 4 (.relayed 7) ⟨100, 11⟩).ctx.returns.depth ≤ 1 := by
    decide +kernel
  have here : Context.At .relay ⟨0, 4, ⟨1024, [9, 7], 2, rfl⟩, .initial 1024⟩
      ⟨⟨0, 0, 2⟩, #[0x60, 7, 0x60, 9, 0xB0, 0, 1, 0x50, 0x00]⟩ (.callf 1) :=
    ⟨rfl, Instruction.decode_eq_ok.2 ⟨0xB0, .callf, rfl, Opcode.ofByte?_byte .callf, rfl⟩⟩
  have found : Container.relay.sections[1]? = some ⟨⟨1, 1, 1⟩, #[0xB0, 0, 2, 0xB1]⟩ := rfl
  obtain ⟨_, _, _, bracket⟩ := call_bracket Host.basic .relay reached here found called
  exact (bracket 4 stays).2.2 returned

end Machine
end EvmObject
