import EvmObject.Proofs.Rebase
import EvmObject.Proofs.StackSafety
/-!
A function cannot tell which words lie below its floor: steps, and the run until it returns, commute
with exchanging them (`step_rebase`, `advance_rebase`). So it cannot change them either
(`advance_keeps`).
-/
namespace EvmObject

variable {σ : Type}

namespace Context

def rebase (low : List Word) (ctx : Context) : Context :=
  { ctx with stack := ctx.stack.rebase low }

variable (low : List Word) (ctx : Context)

@[simp] theorem index_rebase : (ctx.rebase low).index = ctx.index := rfl

@[simp] theorem pc_rebase : (ctx.rebase low).pc = ctx.pc := rfl

@[simp] theorem stack_rebase : (ctx.rebase low).stack = ctx.stack.rebase low := rfl

@[simp] theorem returns_rebase : (ctx.rebase low).returns = ctx.returns := rfl

@[simp] theorem floor_rebase : (ctx.rebase low).floor = ctx.floor := rfl

end Context

namespace Step

def rebase (low : List Word) : Step σ → Step σ
  | next ctx s => next (ctx.rebase low) s
  | exit how ctx s => exit how (ctx.rebase low) s
  | halt reason ctx s => halt reason (ctx.rebase low) s

@[simp] theorem ctx_rebase (low : List Word) (r : Step σ) :
    (r.rebase low).ctx = r.ctx.rebase low := by
  cases r <;> rfl

@[simp] theorem state_rebase (low : List Word) (r : Step σ) : (r.rebase low).state = r.state := by
  cases r <;> rfl

end Step

namespace Machine

variable {host : Host σ} {c : Container} {running : CodeSection} {low : List Word} {ctx : Context}

theorem goTo_rebase (code : Array UInt8) (next : Nat) (jump : Option Int16) (ctx : Context)
    (s : σ) :
    goTo code next jump (ctx.rebase low) s = (goTo code next jump ctx s).rebase low := by
  unfold goTo
  cases land code next jump <;> rfl

theorem select_rebase (deep : low.length ≤ ctx.floor) (fits : low.length ≤ ctx.stack.height)
    (code : Array UInt8) (next : Nat) (choose : Word → Option Int16) (s : σ) :
    select code next choose (ctx.rebase low) s = (select code next choose ctx s).rebase low := by
  simp only [select, Context.stack_rebase, Context.floor_rebase, DataStack.pop_rebase deep fits]
  cases ctx.stack.pop ctx.floor with
  | error e => rfl
  | ok r => exact goTo_rebase code next (choose r.1) { ctx with stack := r.2 } s

theorem leave_rebase (instr : Instruction) (next : Nat) (ctx : Context) (s : σ) :
    leave instr next (ctx.rebase low) s = (leave instr next ctx s).rebase low := by
  unfold leave
  cases instr.exit? <;> rfl

theorem delegate_rebase (deep : low.length ≤ ctx.floor) (fits : low.length ≤ ctx.stack.height)
    (instr : Instruction) (info : OpcodeInfo) (next : Nat) (s : σ) :
    delegate host instr info next (ctx.rebase low) s
      = (delegate host instr info next ctx s).rebase low := by
  simp only [delegate, Context.stack_rebase, Context.floor_rebase,
    DataStack.popMany_rebase deep fits]
  cases taken : ctx.stack.popMany ctx.floor info.inputs with
  | error e => rfl
  | ok r =>
    obtain ⟨inputs, left⟩ := r
    have enough := (DataStack.popMany_eq_ok.1 taken).1
    have fewer := (DataStack.height_popMany taken).2
    have fits_left : low.length ≤ left.height := by
      unfold DataStack.visible at enough
      omega
    simp only [Except.map, Prod.map, id_eq]
    obtain ⟨answer, t⟩ := host.external info.byte inputs s
    cases answer with
    | error e => rfl
    | ok results =>
      dsimp only
      by_cases count : results.length = info.outputs
      · simp only [if_pos count, DataStack.pushAll_rebase fits_left]
        cases left.pushAll results with
        | error e => rfl
        | ok stack => exact leave_rebase instr next { ctx with stack } t
      · simp only [if_neg count]
        rfl

theorem call_rebase (fits : low.length ≤ ctx.stack.height) (target next : Nat) (s : σ) :
    call c target next (ctx.rebase low) s = (call c target next ctx s).rebase low := by
  simp only [call, Context.stack_rebase, Context.returns_rebase, Context.index_rebase,
    DataStack.height_rebase fits]
  cases c.sections[target]? with
  | none => rfl
  | some callee =>
    dsimp only
    cases ctx.returns.push _ <;> rfl

theorem comeBack_rebase (fits : low.length ≤ ctx.stack.height) (type : CodeType) (s : σ) :
    comeBack type (ctx.rebase low) s = (comeBack type ctx s).rebase low := by
  simp only [comeBack, Context.stack_rebase, Context.returns_rebase, Context.floor_rebase,
    DataStack.height_rebase fits]
  cases ctx.returns.pop? with
  | none => rfl
  | some r =>
    dsimp only
    cases r.2.isEmpty <;> rfl

theorem callable_rebase (fits : low.length ≤ ctx.stack.height) (callee : CodeType) :
    callable (ctx.rebase low) callee = callable ctx callee := by
  unfold callable
  rw [Context.stack_rebase, Context.floor_rebase, DataStack.require_rebase fits,
    DataStack.height_rebase fits, DataStack.limit_rebase, Context.returns_rebase]

theorem returnable_rebase (fits : low.length ≤ ctx.stack.height) (type : CodeType) :
    returnable (ctx.rebase low) type = returnable ctx type := by
  unfold returnable
  rw [Context.stack_rebase, Context.floor_rebase, DataStack.height_rebase fits]

theorem ready_rebase (fits : low.length ≤ ctx.stack.height) (type : CodeType) (instr : Instruction)
    (info : OpcodeInfo) : ready c type instr info (ctx.rebase low) = ready c type instr info ctx := by
  unfold ready
  rw [Context.stack_rebase, Context.floor_rebase, DataStack.accommodates_rebase fits]
  cases ctx.stack.accommodates ctx.floor info.inputs info.outputs with
  | error e => rfl
  | ok checked =>
    cases instr with
    | callf target =>
      dsimp only
      cases c.sections[target.toNat]? with
      | none => rfl
      | some callee => exact callable_rebase fits callee.type
    | retf => exact returnable_rebase fits type
    | _ => rfl

theorem perform_rebase (deep : low.length ≤ ctx.floor) (fits : low.length ≤ ctx.stack.height)
    (instr : Instruction) (info : OpcodeInfo) (next : Nat) (s : σ) :
    perform host c running instr info next (ctx.rebase low) s
      = (perform host c running instr info next ctx s).rebase low := by
  cases instr with
  | stack op =>
    have applied : op.apply (ctx.rebase low).floor (ctx.rebase low).stack = _ :=
      StackOp.apply_rebase deep fits op
    simp only [perform]
    rw [applied]
    cases op.apply ctx.floor ctx.stack <;> rfl
  | rjump offset => exact goTo_rebase running.code next (some offset) ctx s
  | rjumpi offset => exact select_rebase deep fits running.code next _ s
  | rjumpv table => exact select_rebase deep fits running.code next _ s
  | callf target => exact call_rebase fits target.toNat next s
  | retf => exact comeBack_rebase fits running.type s
  | stop => rfl
  | invalid => rfl
  | finish how => exact delegate_rebase deep fits (.finish how) info next s
  | delegated op => exact delegate_rebase deep fits (.delegated op) info next s

theorem execute_rebase (deep : low.length ≤ ctx.floor) (fits : low.length ≤ ctx.stack.height)
    (instr : Instruction) (s : σ) :
    execute host c running instr (ctx.rebase low) s
      = (execute host c running instr ctx s).rebase low := by
  simp only [execute, ready_rebase fits, Context.pc_rebase]
  cases ready c running.type instr instr.info ctx with
  | error e => rfl
  | ok checked =>
    obtain ⟨answer, paid⟩ := host.charge instr.info.gas s
    cases answer with
    | error e => rfl
    | ok charged => exact perform_rebase deep fits instr instr.info _ paid

theorem step_rebase (deep : low.length ≤ ctx.floor) (fits : low.length ≤ ctx.stack.height) (s : σ) :
    step host c (ctx.rebase low) s = (step host c ctx s).rebase low := by
  unfold step
  rw [Context.index_rebase, Context.pc_rebase]
  cases c.sections[ctx.index]? with
  | none => rfl
  | some running =>
    dsimp only
    by_cases inside : ctx.pc < running.code.size
    · rw [if_pos inside, if_pos inside]
      cases Instruction.decode running.code ctx.pc with
      | error e => rfl
      | ok instr => exact execute_rebase deep fits instr s
    · rw [if_neg inside, if_neg inside]
      rfl

theorem advance_rebase {f : Frame} {below : List Frame} (orderly : ctx.Orderly)
    (there : f :: below <:+ ctx.returns.frames) (deep : low.length ≤ f.floor) {s : σ} {n : Nat}
    (stays : StaysAbove host c below.length n ctx s) :
    advance host c n (ctx.rebase low) s = (advance host c n ctx s).rebase low := by
  induction n with
  | zero => rfl
  | succ n ih =>
    have still := frames_stay (n := n) there fun m le => stays m (by omega)
    rw [advance, advance, ih fun m less => stays m (by omega)]
    cases reached : advance host c n ctx s with
    | next before t =>
      rw [reached] at still
      -- Floors grow toward the top, so that the running function cannot reach below this one either.
      have calm := invariant_of_advance Context.Orderly.transition orderly reached
      have high := calm.floor_of_mem (still.mem List.mem_cons_self)
      exact step_rebase (Nat.le_trans deep high)
        (Nat.le_trans (Nat.le_trans deep high) calm.floor_le) t
    | exit how before t => rfl
    | halt reason before t => rfl

/-- What cannot be told apart cannot be changed: the words below a floor stay as they are. -/
theorem advance_keeps {f : Frame} {below : List Frame} (orderly : ctx.Orderly)
    (there : f :: below <:+ ctx.returns.frames) {s : σ} {n : Nat}
    (stays : StaysAbove host c below.length n ctx s) :
    f.floor ≤ (advance host c n ctx s).ctx.stack.height ∧
      (advance host c n ctx s).ctx.stack.slots.take f.floor = ctx.stack.slots.take f.floor := by
  have fits : f.floor ≤ ctx.stack.height :=
    Nat.le_trans (orderly.floor_of_mem (there.mem List.mem_cons_self)) orderly.floor_le
  have count : (ctx.stack.slots.take f.floor).length = f.floor := by simp [fits]
  have same : ctx.rebase (ctx.stack.slots.take f.floor) = ctx := by
    rw [Context.rebase, DataStack.rebase_take fits]
  -- So the run is its own rebase all along, and has these words at its bottom wherever it is.
  have again := advance_rebase orderly there (Nat.le_of_eq count) stays
  rw [same] at again
  have same_stack := congrArg (fun r => r.ctx.stack) again
  simp only [Step.ctx_rebase] at same_stack
  have bottom := DataStack.take_of_rebase same_stack.symm
  rwa [count] at bottom

end Machine
end EvmObject
