import EvmObject.Proofs.Arity
import EvmObject.Proofs.CallRules
import EvmObject.Proofs.Metering
/-!
A call of straight-line code equals the code in its place. What such code does depends on the words it reaches, and
whether it does it on their count alone. So where its caller has the room that the callee declares, the machine
carries the body out above the caller's words as it would be evaluated on them. Main statement: `call_eq_inlined`.
-/
namespace EvmObject

variable {σ : Type} {host : Host σ} {meter : σ → GasMeter} {c : Container} {running callee : CodeSection}
  {ctx : Context} {s t : σ} {limits : Limits} {target : UInt16} {op : StackOp} {ops : List StackOp}
  {words after outs low : List Word} {most : Nat}

namespace StackOp

theorem evaluate?_cons : evaluate? most (op :: ops) words = some outs ↔
    ∃ after, op.effect? words = some after ∧ after.length ≤ most ∧ evaluate? most ops after = some outs := by
  rw [evaluate?]
  cases op.effect? words with
  | none => simp
  | some after => by_cases short : after.length ≤ most <;> simp [short]

theorem evaluate?_append (done : evaluate? most ops words = some outs) (low : List Word) :
    evaluate? (most + low.length) ops (words ++ low) = some (outs ++ low) := by
  induction ops generalizing words with
  | nil =>
    cases done
    rfl
  | cons op ops ih =>
    obtain ⟨after, effect, short, rest⟩ := evaluate?_cons.1 done
    refine evaluate?_cons.2 ⟨after ++ low, effect?_append effect low, ?_, ih rest⟩
    rw [List.length_append]
    omega

theorem evaluate?_mono {more : Nat} (le : most ≤ more) (done : evaluate? most ops words = some outs) :
    evaluate? more ops words = some outs := by
  induction ops generalizing words with
  | nil => exact done
  | cons op ops ih =>
    obtain ⟨after, effect, short, rest⟩ := evaluate?_cons.1 done
    exact evaluate?_cons.2 ⟨after, effect, Nat.le_trans short le, ih rest⟩

theorem evaluate?_of_length {words' : List Word} (same : words'.length = words.length)
    (done : evaluate? most ops words = some outs) :
    ∃ outs', evaluate? most ops words' = some outs' ∧ outs'.length = outs.length := by
  induction ops generalizing words words' with
  | nil =>
    cases done
    exact ⟨words', rfl, same⟩
  | cons op ops ih =>
    obtain ⟨after, effect, short, rest⟩ := evaluate?_cons.1 done
    have enough := arity_le effect
    have count := length_effect effect
    cases effect' : op.effect? words' with
    | none =>
      have few := effect?_eq_none.1 effect'
      omega
    | some after' =>
      have count' := length_effect effect'
      have equal : after'.length = after.length := by omega
      obtain ⟨outs', done', long⟩ := ih equal rest
      exact ⟨outs', evaluate?_cons.2 ⟨after', effect', equal ▸ short, done'⟩, long⟩

end StackOp

/-- The second meter is the first with so much more used. -/
structure GasMeter.Spent (before after : GasMeter) (amount : Nat) : Prop where
  limit : after.limit = before.limit
  used : after.used.toNat = before.used.toNat + amount

namespace GasMeter.Spent

variable {m n k : GasMeter} {a b : Nat}

theorem trans (first : m.Spent n a) (second : n.Spent k b) : m.Spent k (a + b) :=
  ⟨second.limit.trans first.limit, by rw [second.used, first.used, Nat.add_assoc]⟩

theorem rest (h : m.Spent n a) (enough : m.used.toNat + (a + b) ≤ m.limit.toNat) :
    n.used.toNat + b ≤ n.limit.toNat := by
  rw [h.limit, h.used, Nat.add_assoc]
  exact enough

end GasMeter.Spent

theorem Host.ChargesThrough.charge_of_le (through : host.ChargesThrough meter) {amount : UInt64}
    (enough : (meter s).used.toNat + amount.toNat ≤ (meter s).limit.toNat) :
    ∃ t, host.charge amount s = (.ok (), t) ∧ (meter s).Spent (meter t) amount.toNat := by
  have granted := GasMeter.charge_of_le enough
  obtain ⟨accepted, kept⟩ := Prod.mk.inj ((through.charge amount s).symm.trans granted)
  obtain ⟨limit, used, _⟩ := GasMeter.used_charge granted
  refine ⟨_, Prod.ext accepted rfl, ?_⟩
  rw [kept]
  exact ⟨limit, used⟩

namespace Machine

theorem step_body (through : host.ChargesThrough meter) (found : c.sections[ctx.index]? = some callee)
    (written : op.encode <+: callee.code.toList.drop ctx.pc) (shape : ctx.stack.words = words ++ low)
    (deep : ctx.floor ≤ low.length) (effect : op.effect? words = some after)
    (room : after.length + low.length ≤ ctx.stack.limit)
    (paid : (meter s).used.toNat + op.cost ≤ (meter s).limit.toNat) :
    ∃ stack t, step host c ctx s = .next { ctx with pc := ctx.pc + op.encode.length, stack } t ∧
      stack.limit = ctx.stack.limit ∧ stack.words = after ++ low ∧ (meter s).Spent (meter t) op.cost := by
  have here : ctx.At c callee (.stack op) := ⟨found, Instruction.decode_iff.2 written⟩
  have enough := StackOp.arity_le effect
  have counts := StackOp.length_effect effect
  have height : ctx.stack.height = words.length + low.length := by
    rw [ctx.stack.height_eq, shape, List.length_append]
  have fits : ctx.stack.accommodates ctx.floor op.opcode.info.inputs op.opcode.info.outputs = .ok () := by
    rw [op.arity_eq, DataStack.accommodates_eq_ok, DataStack.visible]
    omega
  have checked : ready c callee.type (.stack op) (Instruction.stack op).info ctx = .ok () :=
    (ready_eq_accommodates rfl).trans fits
  rw [← op.cost_eq] at paid
  obtain ⟨t, charged, spent⟩ := through.charge_of_le paid
  cases applied : op.apply ctx.floor ctx.stack with
  | error fault => exact absurd applied (StackOp.apply_ne_error fits)
  | ok stack =>
    have result := StackOp.effect?_of_apply applied
    rw [shape, StackOp.effect?_append effect low] at result
    refine ⟨stack, t, ?_, (StackOp.height_apply applied).1, (Option.some.inj result).symm, op.cost_eq ▸ spent⟩
    rw [step_eq_perform here checked charged, perform_stack applied, ← Instruction.length_encode]
    rfl

/-- Straight-line code runs above other words as it is evaluated, and without a call or a return. -/
theorem advance_body (through : host.ChargesThrough meter) (ctx : Context)
    (found : c.sections[ctx.index]? = some callee) {behind : List UInt8}
    (written : callee.code.toList.drop ctx.pc = ops.flatMap StackOp.encode ++ behind)
    (shape : ctx.stack.words = words ++ low) (deep : ctx.floor ≤ low.length)
    (done : StackOp.evaluate? most ops words = some outs) (room : most + low.length ≤ ctx.stack.limit)
    (paid : (meter s).used.toNat + StackOp.totalCost ops ≤ (meter s).limit.toNat) :
    (∃ stack t, advance host c ops.length ctx s
        = .next { ctx with pc := ctx.pc + (ops.flatMap StackOp.encode).length, stack } t ∧
      stack.limit = ctx.stack.limit ∧ stack.words = outs ++ low ∧
      (meter s).Spent (meter t) (StackOp.totalCost ops)) ∧
    ∀ m ≤ ops.length, (advance host c m ctx s).ctx.returns = ctx.returns := by
  induction ops generalizing ctx s words with
  | nil =>
    cases done
    refine ⟨⟨ctx.stack, s, rfl, rfl, shape, rfl, rfl⟩, ?_⟩
    intro m le
    obtain rfl := Nat.le_zero.1 le
    rfl
  | cons op ops ih =>
    obtain ⟨after, effect, short, rest⟩ := StackOp.evaluate?_cons.1 done
    rw [List.flatMap_cons, List.append_assoc] at written
    have first : op.encode <+: callee.code.toList.drop ctx.pc := written ▸ List.prefix_append _ _
    have once : (meter s).used.toNat + op.cost ≤ (meter s).limit.toNat := by
      rw [StackOp.totalCost] at paid
      omega
    obtain ⟨stack, t, stepped, limit, top, spent⟩ :=
      step_body through found first shape deep effect (by omega) once
    have later : callee.code.toList.drop (ctx.pc + op.encode.length)
        = ops.flatMap StackOp.encode ++ behind := by
      rw [← List.drop_drop, written, List.drop_left]
    obtain ⟨⟨final, u, reached, limit', words', spent'⟩, level⟩ :=
      ih { ctx with pc := ctx.pc + op.encode.length, stack } found later top deep rest
        (limit.symm ▸ room) (spent.rest paid)
    have split (m : Nat) : advance host c (m + 1) ctx s
        = advance host c m { ctx with pc := ctx.pc + op.encode.length, stack } t := by
      rw [Nat.add_comm, advance_add, advance_one, stepped]
      rfl
    refine ⟨⟨final, u, ?_, limit'.trans limit, words', spent.trans spent'⟩, ?_⟩
    · rw [List.length_cons, split, reached, List.flatMap_cons, List.length_append, Nat.add_assoc]
    · intro m le
      cases m with
      | zero => rfl
      | succ m =>
        rw [split]
        exact level m (Nat.le_of_succ_le_succ le)

theorem step_paid_call (through : host.ChargesThrough meter) (limited : ctx.Limited limits)
    (here : ctx.At c running (.callf target)) (found : c.sections[target.toNat]? = some callee)
    (enough : callee.type.inputs.toNat ≤ ctx.stack.height - ctx.floor)
    (room : ctx.stack.height + callee.type.maxStackHeight.toNat ≤ limits.stackLimit)
    (free : ctx.returns.depth < limits.returnLimit)
    (paid : (meter s).used.toNat + 5 ≤ (meter s).limit.toNat) :
    ∃ returns t, returns.limit = ctx.returns.limit ∧
      returns.frames = ⟨ctx.index, ctx.pc + 3, ctx.stack.height - callee.type.inputs.toNat⟩
        :: ctx.returns.frames ∧
      step host c ctx s = .next { ctx with index := target.toNat, pc := 0, returns } t ∧
      (meter s).Spent (meter t) 5 := by
  have checked := (limited.ready_call running found).2 ⟨enough, .inl room, free⟩
  obtain ⟨t, charged, spent⟩ := through.charge_of_le (s := s) (show _ + (5 : UInt64).toNat ≤ _ from paid)
  obtain ⟨returns, limit, frames, enters⟩ := step_enters here found checked charged
  exact ⟨returns, t, limit, frames, enters, spent⟩

theorem step_paid_return (through : host.ChargesThrough meter) (limited : ctx.Limited limits)
    (here : ctx.At c running .retf) (same : ctx.stack.height = ctx.floor + running.type.outputs.toNat)
    (paid : (meter s).used.toNat + 3 ≤ (meter s).limit.toNat) {frame : Frame} {returns : ReturnStack}
    (limit : returns.limit = ctx.returns.limit) (popped : ctx.returns.frames = frame :: returns.frames)
    (more : 0 < returns.depth) :
    ∃ t, step host c ctx s = .next { ctx with index := frame.index, pc := frame.offset, returns } t ∧
      (meter s).Spent (meter t) 3 := by
  have checked := (limited.ready_eq_returnable (c := c) running).trans (returnable_eq_ok.2 same)
  obtain ⟨t, charged, spent⟩ := through.charge_of_le (s := s) (show _ + (3 : UInt64).toNat ≤ _ from paid)
  have some_left : returns.isEmpty = false := by
    rw [ReturnStack.depth_eq] at more
    rw [ReturnStack.isEmpty, List.isEmpty_eq_false_iff]
    exact List.ne_nil_of_length_pos more
  have leaves := step_leaves here checked charged limit popped
  rw [some_left] at leaves
  exact ⟨t, leaves, spent⟩

/-- A run from a call whose callee is straight-line code to just behind the matching return: with its frame the
return stack is `returns` until then, and `stack` holds the words as the body leaves them. -/
structure InlinedCall (host : Host σ) (c : Container) (callee : CodeSection) (body : List StackOp) (ctx : Context)
    (target : Nat) (returns : ReturnStack) (stack : DataStack) (s called done t : σ) : Prop where
  frames : returns.frames
    = ⟨ctx.index, ctx.pc + 3, ctx.stack.height - callee.type.inputs.toNat⟩ :: ctx.returns.frames
  enters : step host c ctx s = .next ⟨target, 0, ctx.stack, returns⟩ called
  level : ∀ m ≤ body.length, (advance host c m ⟨target, 0, ctx.stack, returns⟩ called).ctx.returns = returns
  ends : advance host c body.length ⟨target, 0, ctx.stack, returns⟩ called
    = .next ⟨target, (body.flatMap StackOp.encode).length, stack, returns⟩ done
  there : Context.At c ⟨target, (body.flatMap StackOp.encode).length, stack, returns⟩ callee .retf
  resumes : step host c ⟨target, (body.flatMap StackOp.encode).length, stack, returns⟩ done
    = .next { ctx with pc := ctx.pc + 3, stack } t

theorem InlinedCall.advance_eq {body : List StackOp} {index : Nat} {returns : ReturnStack} {stack : DataStack}
    {called done : σ} (h : InlinedCall host c callee body ctx index returns stack s called done t) :
    advance host c (body.length + 2) ctx s = .next { ctx with pc := ctx.pc + 3, stack } t := by
  have inside : advance host c (1 + body.length) ctx s
      = .next ⟨index, (body.flatMap StackOp.encode).length, stack, returns⟩ done := by
    rw [advance_add, advance_one, h.enters]
    exact h.ends
  rw [show body.length + 2 = 1 + body.length + 1 by omega, advance_succ inside]
  exact h.resumes

/-- Let a callee be straight-line code and a return, which is known to leave as many words as it declares, and
never to have more than it declares, when it starts with its inputs alone. Where a run comes to a call of it, with
the inputs, the headroom, a frame and the gas at hand, the call is carried out through to the return. Then the words
are what the body makes of all words of the caller, the return stack is as before, and the gas is that of the
call, the body and the return. -/
theorem call_eq_inlined (through : host.ChargesThrough meter) {body : List StackOp} {args : List Word} {n : Nat}
    (reached : advance host c n (.initial limits) s = .next ctx t)
    (here : ctx.At c running (.callf target)) (found : c.sections[target.toNat]? = some callee)
    (written : callee.code.toList = body.flatMap StackOp.encode ++ Instruction.retf.encode)
    (inputs : args.length = callee.type.inputs.toNat)
    (evaluated : StackOp.evaluate? callee.type.maxStackHeight.toNat body args = some outs)
    (outputs : outs.length = callee.type.outputs.toNat)
    (enough : callee.type.inputs.toNat ≤ ctx.stack.height - ctx.floor)
    (room : ctx.stack.height + callee.type.maxStackHeight.toNat ≤ limits.stackLimit)
    (free : ctx.returns.depth < limits.returnLimit)
    (paid : 5 + StackOp.totalCost body + 3 ≤ (meter t).left) :
    ∃ returns stack called done u,
      InlinedCall host c callee body ctx target.toNat returns stack t called done u ∧
      advance host c (body.length + 2) ctx t = .next { ctx with pc := ctx.pc + 3, stack } u ∧
      stack.limit = ctx.stack.limit ∧
      StackOp.evaluate? limits.stackLimit body ctx.stack.words = some stack.words ∧
      (meter t).Spent (meter u) (5 + StackOp.totalCost body + 3) := by
  have limited : ctx.Limited limits :=
    invariant_of_advance Context.Limited.transition (.initial limits) reached
  have grounded : ctx.Grounded :=
    invariant_of_advance Context.Grounded.transition (Context.grounded_initial limits) reached
  rw [GasMeter.left] at paid
  -- The call.
  obtain ⟨returns, called, limit, frames, enters, spent⟩ :=
    step_paid_call (s := t) through limited here found enough room free (by omega)
  have floor : returns.floor = ctx.stack.height - callee.type.inputs.toNat :=
    ReturnStack.floor_of_frames frames
  -- The body, on the words that the callee reaches.
  have height := ctx.stack.height_eq
  have within : ctx.stack.limit = limits.stackLimit := limited.stack
  have reach : (ctx.stack.words.take callee.type.inputs.toNat).length = args.length := by
    rw [List.length_take]
    omega
  have below : (ctx.stack.words.drop callee.type.inputs.toNat).length
      = ctx.stack.height - callee.type.inputs.toNat := by
    rw [List.length_drop, ← height]
  have headroom : callee.type.maxStackHeight.toNat
      + (ctx.stack.words.drop callee.type.inputs.toNat).length ≤ ctx.stack.limit := by omega
  obtain ⟨tops, evaluated', same⟩ := StackOp.evaluate?_of_length reach evaluated
  obtain ⟨⟨stack, done, ends, limit', words, spent'⟩, level⟩ :=
    advance_body through ⟨target.toNat, 0, ctx.stack, returns⟩ found written
      (List.take_append_drop _ _).symm (Nat.le_of_eq (floor.trans below.symm)) evaluated' headroom
      (spent.rest (by omega))
  rw [Nat.zero_add] at ends
  dsimp only at limit' words
  -- The return.
  have entered : Context.Limited limits ⟨target.toNat, 0, ctx.stack, returns⟩ :=
    ⟨limited.stack, limit.trans limited.returns, limited.height_le⟩
  have limited' : Context.Limited limits ⟨target.toNat, (body.flatMap StackOp.encode).length, stack, returns⟩ :=
    invariant_of_advance Context.Limited.transition entered ends
  have last : callee.code.toList.drop (body.flatMap StackOp.encode).length = Instruction.retf.encode := by
    rw [written, List.drop_left]
  have there : Context.At c ⟨target.toNat, (body.flatMap StackOp.encode).length, stack, returns⟩ callee .retf :=
    ⟨found, Instruction.decode_iff.2 (last ▸ List.prefix_rfl)⟩
  have outputs' : stack.height = returns.floor + callee.type.outputs.toNat := by
    rw [stack.height_eq, words, List.length_append]
    omega
  obtain ⟨u, resumes, spent''⟩ :=
    step_paid_return through limited' there outputs' ((spent.trans spent').rest (by omega)) limit.symm frames
      grounded.depth_pos
  have whole := StackOp.evaluate?_append evaluated' (ctx.stack.words.drop callee.type.inputs.toNat)
  rw [List.take_append_drop, ← words] at whole
  have bracket : InlinedCall host c callee body ctx target.toNat returns stack t called done u :=
    ⟨frames, enters, level, ends, there, resumes⟩
  exact ⟨returns, stack, called, done, u, bracket, bracket.advance_eq, limit',
    StackOp.evaluate?_mono (within ▸ headroom) whole, (spent.trans spent').trans spent''⟩

/-- The relay's second function calls the third, which negates the word on top. -/
theorem relay_eq_inlined :
    ∃ returns stack called done u,
      InlinedCall .basic .relay ⟨⟨1, 1, 1⟩, #[0x19, 0xB1]⟩ [.unary .not] (.relayed 7) 2 returns stack
        ⟨100, 11⟩ called done u ∧
      advance Host.basic .relay 3 (.relayed 7) ⟨100, 11⟩ = .next { Context.relayed 7 with pc := 3, stack } u ∧
      stack.limit = 1024 ∧
      StackOp.evaluate? 1024 [.unary .not] [9, 7] = some stack.words ∧
      GasMeter.Spent ⟨100, 11⟩ u 11 := by
  have reached : advance Host.basic .relay 3 (.initial .default) (.full 100) = .next (.relayed 7) ⟨100, 11⟩ := by
    decide +kernel
  have here : (Context.relayed 7).At .relay ⟨⟨1, 1, 1⟩, #[0xB0, 0, 2, 0xB1]⟩ (.callf 2) :=
    ⟨rfl, Instruction.decode_iff.2 (by decide)⟩
  exact call_eq_inlined Host.chargesThrough_basic reached here rfl rfl rfl
    (rfl : StackOp.evaluate? 1 [.unary .not] [9] = some [~~~9]) rfl (by decide) (by decide) (by decide) (by decide)

end Machine
end EvmObject
