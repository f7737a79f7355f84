import EvmObject.Proofs.Advance
import EvmObject.Proofs.Raise
/-!
Limits only cut runs short: under higher ones a run takes the same steps, until the lower ones would have
ended it. Main statement: `run_raise`.
-/
namespace EvmObject

variable {σ : Type} {host : Host σ} {lift : σ → σ} {limits : Limits} {c : Container}
  {running : CodeSection} {instr : Instruction} {info : OpcodeInfo} {ctx : Context} {s : σ}

/-- In the lifted state the host answers the same, unless it refuses a charge for a limit. -/
structure Host.Lifts (host : Host σ) (lift : σ → σ) : Prop where
  charge : ∀ amount s, Uncut (host.charge amount s).1 →
    host.charge amount (lift s) = ((host.charge amount s).1, lift (host.charge amount s).2)
  external : ∀ byte inputs s, host.external byte inputs (lift s)
    = ((host.external byte inputs s).1, lift (host.external byte inputs s).2)
  gasUsed : ∀ s, host.gasUsed (lift s) = host.gasUsed s

theorem Host.lifts_basic (limit : UInt64) : basic.Lifts (GasMeter.raise limit) where
  charge _ _ := GasMeter.charge_raise
  external byte inputs m := by
    simp only [basic]
    split <;> rfl
  gasUsed _ := rfl

namespace Step

def raise (limits : Limits) (lift : σ → σ) : Step σ → Step σ
  | next ctx s => next (ctx.raise limits) (lift s)
  | exit how ctx s => exit how (ctx.raise limits) (lift s)
  | halt reason ctx s => halt reason (ctx.raise limits) (lift s)

def Uncut (r : Step σ) : Prop :=
  ∀ reason ctx s, r = .halt reason ctx s → reason.isLimit = false

/-- An attempt whose error would be the step's own is not cut short in a step that is not. -/
theorem Uncut.of_halt {α : Type} {x : Except Halt α} {r : Step σ} (h : r.Uncut)
    (passed : ∀ reason, x = .error reason → ∃ ctx s, r = .halt reason ctx s) :
    EvmObject.Uncut x := by
  intro reason failed
  obtain ⟨ctx, s, halted⟩ := passed reason failed
  exact h reason ctx s halted

theorem outcome?_raise (lifts : host.Lifts lift) (limits : Limits) (r : Step σ) :
    (r.raise limits lift).outcome? host = (r.outcome? host).map (Prod.map id lift) := by
  cases r with
  | next ctx s => rfl
  | exit how ctx s =>
    have same : Outcome.ofExit host how (ctx.raise limits) (lift s) = .ofExit host how ctx s := by
      simp only [Outcome.ofExit, lifts.gasUsed]
      rfl
    exact congrArg (fun outcome => some (outcome, lift s)) same
  | halt reason ctx s => rfl

end Step

namespace Machine

variable {next : Nat}

theorem goTo_raise (limits : Limits) (lift : σ → σ) (code : Array UInt8) (next : Nat)
    (jump : Option Int16) (ctx : Context) (s : σ) :
    goTo code next jump (ctx.raise limits) (lift s) = (goTo code next jump ctx s).raise limits lift := by
  unfold goTo
  cases land code next jump <;> rfl

theorem select_raise (limits : Limits) (lift : σ → σ) (code : Array UInt8) (next : Nat)
    (choose : Word → Option Int16) (ctx : Context) (s : σ) :
    select code next choose (ctx.raise limits) (lift s)
      = (select code next choose ctx s).raise limits lift := by
  simp only [select, Context.stack_raise, Context.floor_raise, DataStack.pop_raise]
  cases ctx.stack.pop ctx.floor with
  | error e => rfl
  | ok r => exact goTo_raise limits lift code next (choose r.1) { ctx with stack := r.2 } s

theorem leave_raise (limits : Limits) (lift : σ → σ) (instr : Instruction) (next : Nat) (ctx : Context)
    (s : σ) : leave instr next (ctx.raise limits) (lift s) = (leave instr next ctx s).raise limits lift := by
  unfold leave
  cases instr.exit? <;> rfl

theorem delegate_raise (lifts : host.Lifts lift) (uncut : (delegate host instr info next ctx s).Uncut) :
    delegate host instr info next (ctx.raise limits) (lift s)
      = (delegate host instr info next ctx s).raise limits lift := by
  simp only [delegate, Context.stack_raise, Context.floor_raise, DataStack.popMany_raise] at uncut ⊢
  cases taken : ctx.stack.popMany ctx.floor info.inputs with
  | error e => rfl
  | ok r =>
    simp only [taken] at uncut
    simp only [Except.map, Prod.map, id_eq, lifts.external]
    cases answered : host.external info.byte r.1 s with
    | mk answer t =>
      simp only [answered] at uncut
      cases answer with
      | error e => rfl
      | ok results =>
        dsimp only at uncut ⊢
        by_cases count : results.length = info.outputs
        · simp only [if_pos count] at uncut ⊢
          have fits : EvmObject.Uncut ((r.2.pushAll results).mapError Prod.fst) := by
            refine uncut.of_halt ?_
            intro reason full
            obtain ⟨left, full⟩ := mapError_fst_eq_error.1 full
            exact ⟨_, _, by simp only [full]; rfl⟩
          rw [DataStack.pushAll_raise fits]
          cases r.2.pushAll results with
          | error e => rfl
          | ok stack => exact leave_raise limits lift instr next { ctx with stack } t
        · simp only [if_neg count]
          rfl

theorem call_raise {target : Nat} (uncut : (call c target next ctx s).Uncut) :
    call c target next (ctx.raise limits) (lift s) = (call c target next ctx s).raise limits lift := by
  unfold call at uncut ⊢
  cases found : c.sections[target]? with
  | none => rfl
  | some callee =>
    simp only [found] at uncut
    dsimp only
    have free := uncut.of_halt fun reason (full : ctx.returns.push
        ⟨ctx.index, next, ctx.stack.height - callee.type.inputs.toNat⟩ = .error reason) =>
      ⟨_, _, by simp only [full]; rfl⟩
    rw [Context.returns_raise, Context.index_raise, Context.stack_raise, DataStack.height_raise,
      ReturnStack.push_raise free]
    cases ctx.returns.push ⟨ctx.index, next, ctx.stack.height - callee.type.inputs.toNat⟩ <;> rfl

theorem comeBack_raise (limits : Limits) (lift : σ → σ) (type : CodeType) (ctx : Context) (s : σ) :
    comeBack type (ctx.raise limits) (lift s) = (comeBack type ctx s).raise limits lift := by
  simp only [comeBack, Context.returns_raise, ReturnStack.pop?_raise]
  cases ctx.returns.pop? with
  | none => rfl
  | some r =>
    have same : (r.2.raise limits.returnLimit).isEmpty = r.2.isEmpty := rfl
    simp only [Option.map, Prod.map, same]
    cases r.2.isEmpty <;> rfl

theorem callable_raise {callee : CodeType} (uncut : Uncut (callable ctx callee)) :
    callable (ctx.raise limits) callee = callable ctx callee := by
  cases checked : callable ctx callee with
  | ok passed =>
    obtain ⟨arguments, headroom, free⟩ := callable_eq_ok.1 checked
    refine callable_eq_ok.2 ⟨arguments, ?_, ReturnStack.isFull_raise free⟩
    rw [Context.stack_raise, DataStack.height_raise, DataStack.limit_raise]
    omega
  | error reason =>
    rw [checked] at uncut
    obtain ⟨few, rfl⟩ | ⟨_, rfl⟩ | ⟨_, rfl⟩ := callable_eq_error checked
    · have short := DataStack.require_eq_error.2 ⟨few, rfl⟩
      simp only [callable, Context.stack_raise, Context.floor_raise, DataStack.require_raise, short]
    · nomatch uncut _ rfl
    · nomatch uncut _ rfl

theorem ready_raise {type : CodeType} (uncut : Uncut (ready c type instr info ctx)) :
    ready c type instr info (ctx.raise limits) = ready c type instr info ctx := by
  unfold ready at uncut ⊢
  have fits : Uncut (ctx.stack.accommodates ctx.floor info.inputs info.outputs) := by
    intro reason full
    rw [full] at uncut
    exact uncut reason rfl
  rw [Context.stack_raise, Context.floor_raise, DataStack.accommodates_raise fits]
  cases checked : ctx.stack.accommodates ctx.floor info.inputs info.outputs with
  | error e => rfl
  | ok u =>
    rw [checked] at uncut
    cases instr with
    | callf target =>
      dsimp only at uncut ⊢
      cases found : c.sections[target.toNat]? with
      | none => rfl
      | some callee =>
        rw [found] at uncut
        exact callable_raise uncut
    | _ => rfl

theorem perform_raise (lifts : host.Lifts lift)
    (uncut : (perform host c running instr info next ctx s).Uncut) :
    perform host c running instr info next (ctx.raise limits) (lift s)
      = (perform host c running instr info next ctx s).raise limits lift := by
  cases instr with
  | stack op =>
    simp only [perform] at uncut ⊢
    have fits : EvmObject.Uncut ((op.apply ctx.floor ctx.stack).mapError Prod.fst) := by
      refine uncut.of_halt ?_
      intro reason full
      obtain ⟨left, full⟩ := mapError_fst_eq_error.1 full
      exact ⟨_, _, by simp only [full]; rfl⟩
    rw [Context.stack_raise, Context.floor_raise, StackOp.apply_raise fits]
    cases op.apply ctx.floor ctx.stack <;> rfl
  | rjump offset => exact goTo_raise limits lift running.code next (some offset) ctx s
  | rjumpi offset => exact select_raise limits lift running.code next _ ctx s
  | rjumpv table => exact select_raise limits lift running.code next _ ctx s
  | callf target => exact call_raise uncut
  | retf => exact comeBack_raise limits lift running.type ctx s
  | stop => rfl
  | invalid => rfl
  | finish how => exact delegate_raise lifts uncut
  | delegated op => exact delegate_raise lifts uncut

theorem execute_raise (lifts : host.Lifts lift) (uncut : (execute host c running instr ctx s).Uncut) :
    execute host c running instr (ctx.raise limits) (lift s)
      = (execute host c running instr ctx s).raise limits lift := by
  simp only [execute] at uncut ⊢
  have fits := uncut.of_halt fun reason (full : ready c running.type instr instr.info ctx = .error reason) =>
    ⟨_, _, by simp only [full]; rfl⟩
  rw [ready_raise fits]
  cases checked : ready c running.type instr instr.info ctx with
  | error e => rfl
  | ok u =>
    simp only [checked] at uncut
    have paid := uncut.of_halt fun reason (refused : (host.charge instr.info.gas s).1 = .error reason) =>
      ⟨_, _, by rw [← Prod.eta (host.charge instr.info.gas s), refused]⟩
    rw [lifts.charge _ _ paid]
    cases charged : host.charge instr.info.gas s with
    | mk answer t =>
      rw [charged] at uncut
      cases answer with
      | error e => rfl
      | ok accepted => exact perform_raise lifts uncut

theorem step_raise (lifts : host.Lifts lift) (uncut : (step host c ctx s).Uncut) :
    step host c (ctx.raise limits) (lift s) = (step host c ctx s).raise limits lift := by
  unfold step at uncut ⊢
  rw [Context.index_raise, Context.pc_raise]
  cases found : c.sections[ctx.index]? with
  | none => rfl
  | some running =>
    simp only [found] at uncut
    dsimp only
    by_cases inside : ctx.pc < running.code.size
    · rw [if_pos inside] at uncut
      rw [if_pos inside, if_pos inside]
      cases decoded : Instruction.decode running.code ctx.pc with
      | error e => rfl
      | ok instr =>
        rw [decoded] at uncut
        exact execute_raise lifts uncut
    · rw [if_neg inside, if_neg inside]
      rfl

theorem advance_raise (lifts : host.Lifts lift) {n : Nat} (uncut : (advance host c n ctx s).Uncut) :
    advance host c n (ctx.raise limits) (lift s) = (advance host c n ctx s).raise limits lift := by
  induction n with
  | zero => rfl
  | succ n ih =>
    rw [advance] at uncut
    rw [advance, advance]
    cases reached : advance host c n ctx s with
    | next before t =>
      -- Nothing has failed so far, so that only this step can be cut short.
      rw [reached] at ih uncut
      rw [ih (by rintro _ _ _ ⟨⟩)]
      exact step_raise lifts uncut
    | exit how after t =>
      rw [reached] at ih
      rw [ih (by rintro _ _ _ ⟨⟩)]
      rfl
    | halt reason after t =>
      rw [reached] at ih uncut
      rw [ih uncut]
      rfl

theorem runFor_raise (lifts : host.Lifts lift) (limits : Limits) {n : Nat} {outcome : Outcome} {t : σ}
    (ended : runFor host c n ctx s = some (outcome, t))
    (uncut : ∀ reason, outcome.reason? = some reason → reason.isLimit = false) :
    runFor host c n (ctx.raise limits) (lift s) = some (outcome, lift t) := by
  rw [runFor_eq] at ended ⊢
  have allowed : (advance host c n ctx s).Uncut := by
    intro reason after u halted
    rw [halted] at ended
    cases ended
    exact uncut reason rfl
  rw [advance_raise lifts allowed, Step.outcome?_raise lifts, ended]
  rfl

/-- A run that no limit makes fail comes to the same within higher limits. -/
theorem run_raise (c : Container) {l l' : Limits} (le : l ≤ l')
    (uncut : ∀ reason, (run .basic c l (.full l.gasLimit)).1.reason? = some reason →
      reason.isLimit = false) :
    (run .basic c l' (.full l'.gasLimit)).1 = (run .basic c l (.full l.gasLimit)).1 := by
  have ended := runFor_run .basic c l (.full l.gasLimit)
  generalize run .basic c l (.full l.gasLimit) = result at ended uncut ⊢
  obtain ⟨outcome, m⟩ := result
  have again := runFor_raise (Host.lifts_basic l'.gasLimit) l' ended uncut
  rw [Context.raise_initial le, GasMeter.raise_full le.2.2] at again
  rw [run_of_runFor again]

/-- Within three words, three frames and as much gas as it takes, the relay comes to what it comes to by
default. -/
theorem run_raise_relay :
    (run .basic .relay .default (.full Limits.gasDefault)).1
      = (run .basic .relay ⟨3, 3, 27⟩ (.full 27)).1 := by
  have ends : (run .basic .relay ⟨3, 3, 27⟩ (.full 27)).1.reason? = none := by decide +kernel
  have le : (⟨3, 3, 27⟩ : Limits) ≤ .default := by decide
  refine run_raise .relay le ?_
  rw [ends]
  nofun

end Machine
end EvmObject
