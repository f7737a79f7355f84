import EvmObject.Proofs.Faults
import EvmObject.Proofs.History
import EvmObject.Proofs.Requests
/-!
What a machine and its host say to each other. A step asks for nothing before all its checks are passed,
then for its charge, and then, if the instruction is left to the host, for its results. Main statement:
`host_seam`.
-/
namespace EvmObject

variable {σ : Type} {host : Host σ} {c : Container} {running : CodeSection} {instr : Instruction}
  {info : OpcodeInfo} {next : Nat} {ctx ctx' : Context} {s t paid : σ} {reason : Halt}

/-- All that is checked before an instruction is paid for. A call and a return have checks of their own. -/
structure Context.Cleared (c : Container) (running : CodeType) (instr : Instruction) (ctx : Context) :
    Prop where
  inputs : instr.info.inputs ≤ ctx.stack.visible ctx.floor
  room : ctx.stack.height - instr.info.inputs + instr.info.outputs ≤ ctx.stack.limit
  call : ∀ target, instr = .callf target → ∃ callee, c.sections[target.toNat]? = some callee ∧
    callee.type.inputs.toNat ≤ ctx.stack.visible ctx.floor ∧
    ctx.stack.height ≤ ctx.stack.limit - callee.type.maxStackHeight.toNat ∧
    ctx.returns.depth < ctx.returns.limit
  back : instr = .retf → ctx.stack.height = ctx.floor + running.outputs.toNat

def refusal? {α : Type} : Except Halt α → Option Halt
  | .error reason => some reason
  | .ok _ => none

theorem refusal?_eq_some {α : Type} {answer : Except Halt α} :
    refusal? answer = some reason ↔ answer = .error reason := by
  cases answer <;> simp [refusal?]

namespace Machine

/-- What a step asks of its host, in order, and the answer that ends the run if there is one. -/
inductive Seam (host : Host σ) (c : Container) (ctx : Context) (s : σ) :
    List Request → Option Halt → Prop
  | lost (missing : c.sections[ctx.index]? = none) : Seam host c ctx s [] none
  | ended {running : CodeSection} (found : c.sections[ctx.index]? = some running)
      (past : running.code.size ≤ ctx.pc) : Seam host c ctx s [] none
  | undecoded {running : CodeSection} {e : DecodeError} (found : c.sections[ctx.index]? = some running)
      (failed : Instruction.decode running.code ctx.pc = .error e) : Seam host c ctx s [] none
  | uncleared {running : CodeSection} {instr : Instruction} (here : ctx.At c running instr)
      (failed : ¬ ctx.Cleared c running.type instr) : Seam host c ctx s [] none
  | unpaid {running : CodeSection} {instr : Instruction} {reason : Halt} (here : ctx.At c running instr)
      (cleared : ctx.Cleared c running.type instr)
      (refused : (host.charge instr.info.gas s).1 = .error reason) :
    Seam host c ctx s [.charge instr.info.gas] (some reason)
  | own {running : CodeSection} {instr : Instruction} (here : ctx.At c running instr)
      (cleared : ctx.Cleared c running.type instr) (charged : (host.charge instr.info.gas s).1 = .ok ())
      (own : instr.isDelegated = false) : Seam host c ctx s [.charge instr.info.gas] none
  /-- The inputs are the topmost words, deepest first, and none is below the floor. -/
  | handed {running : CodeSection} {instr : Instruction} {paid : σ} {kept inputs : List Word}
      (here : ctx.At c running instr) (cleared : ctx.Cleared c running.type instr)
      (charged : host.charge instr.info.gas s = (.ok (), paid)) (handed : instr.isDelegated = true)
      (topmost : ctx.stack.slots = kept ++ inputs) (count : inputs.length = instr.info.inputs)
      (above : ctx.floor ≤ kept.length) :
    Seam host c ctx s [.charge instr.info.gas, .external instr.info.byte inputs]
      (refusal? (host.external instr.info.byte inputs paid).1)

theorem ready_iff_cleared :
    ready c running.type instr instr.info ctx = .ok () ↔ ctx.Cleared c running.type instr := by
  constructor
  · intro h
    obtain ⟨fits, calls, comesBack⟩ := ready_eq_ok h
    obtain ⟨inputs, room⟩ := DataStack.accommodates_eq_ok.1 fits
    refine ⟨inputs, room, ?_, fun same => returnable_eq_ok.1 (comesBack same)⟩
    intro target same
    obtain ⟨callee, found, free⟩ := calls target same
    obtain ⟨arguments, headroom, frame⟩ := callable_eq_ok.1 free
    exact ⟨callee, found, arguments, headroom, ReturnStack.isFull_eq_false.1 frame⟩
  · intro h
    cases checked : ready c running.type instr instr.info ctx with
    | ok passed => rfl
    | error reason =>
      obtain few | ⟨target, same, ⟨missing, _⟩ | ⟨callee, found, busy⟩⟩ | ⟨same, early⟩ :=
        ready_eq_error checked
      · rw [DataStack.accommodates_eq_ok.2 ⟨h.inputs, h.room⟩] at few
        nomatch few
      · obtain ⟨callee, found, _⟩ := h.call target same
        nomatch found.symm.trans missing
      · obtain ⟨callee', found', arguments, headroom, frame⟩ := h.call target same
        cases found'.symm.trans found
        have free := ReturnStack.isFull_eq_false.2 frame
        rw [callable_eq_ok.2 ⟨arguments, headroom, free⟩] at busy
        nomatch busy
      · rw [returnable_eq_ok.2 (h.back same)] at early
        nomatch early

/-! The host after each part of a step. -/

theorem goTo_state (code : Array UInt8) (jump : Option Int16) :
    (goTo code next jump ctx s).state = s := by
  unfold goTo
  split <;> rfl

theorem select_state (code : Array UInt8) (choose : Word → Option Int16) :
    (select code next choose ctx s).state = s := by
  unfold select
  split
  · exact goTo_state ..
  · rfl

theorem call_state (target : Nat) : (call c target next ctx s).state = s := by
  unfold call
  split
  · rfl
  · split <;> rfl

theorem comeBack_state (type : CodeType) : (comeBack type ctx s).state = s := by
  unfold comeBack
  split
  · rfl
  · split <;> rfl

theorem leave_state : (leave instr next ctx s).state = s := by
  unfold leave
  split <;> rfl

theorem perform_state (own : instr.isDelegated = false) :
    (perform host c running instr info next ctx s).state = s := by
  cases instr with
  | stack op =>
    simp only [perform]
    split <;> rfl
  | rjump offset => exact goTo_state ..
  | rjumpi offset => exact select_state ..
  | rjumpv table => exact select_state ..
  | callf target => exact call_state target.toNat
  | retf => exact comeBack_state running.type
  | stop => rfl
  | invalid => rfl
  | finish how => cases own
  | delegated op => cases own

theorem perform_delegated (handed : instr.isDelegated = true) :
    perform host c running instr info next ctx s = delegate host instr info next ctx s := by
  cases instr with
  | finish how => rfl
  | delegated op => rfl
  | _ => nomatch handed

theorem delegate_state {inputs : List Word} {stack : DataStack}
    (taken : ctx.stack.popMany ctx.floor info.inputs = .ok (inputs, stack)) :
    (delegate host instr info next ctx s).state = (host.external info.byte inputs s).2 := by
  simp only [delegate, taken]
  cases host.external info.byte inputs s with
  | mk answer t =>
    cases answer with
    | error reason => rfl
    | ok results =>
      dsimp only
      split
      · split
        · rfl
        · exact leave_state
      · rfl

theorem delegate_refused {inputs : List Word} {stack : DataStack}
    (taken : ctx.stack.popMany ctx.floor info.inputs = .ok (inputs, stack))
    (refused : (host.external info.byte inputs s).1 = .error reason) :
    delegate host instr info next ctx s
      = .halt reason { ctx with stack } (host.external info.byte inputs s).2 := by
  simp only [delegate, taken]
  cases answer : host.external info.byte inputs s with
  | mk result t =>
    rw [answer] at refused
    cases refused
    rfl

theorem seam_of_perform {paid : σ × List Request} (low : ctx.floor ≤ ctx.stack.height)
    (here : ctx.At c running instr) (cleared : ctx.Cleared c running.type instr)
    (charged : host.recorded.charge instr.info.gas (s, []) = (.ok (), paid)) :
    ∃ refusal, Seam host c ctx s
        (perform host.recorded c running instr instr.info next ctx paid).state.2.reverse refusal ∧
      ∀ reason, refusal = some reason →
        ∃ stack t, perform host.recorded c running instr instr.info next ctx paid
          = .halt reason { ctx with stack } t := by
  obtain ⟨accepted, rfl⟩ := Prod.mk.inj charged
  cases handed : instr.isDelegated with
  | false =>
    rw [perform_state handed]
    exact ⟨none, .own here cleared accepted handed, nofun⟩
  | true =>
    obtain ⟨inputs, stack, taken⟩ := DataStack.popMany_of_le cleared.inputs
    obtain ⟨enough, count, _, shape⟩ := DataStack.popMany_eq_ok.1 taken
    have above : ctx.floor ≤ stack.slots.length := by
      have fewer := (DataStack.height_popMany taken).2
      rw [DataStack.length_slots]
      unfold DataStack.visible at enough
      omega
    rw [perform_delegated handed, delegate_state taken]
    refine ⟨_, .handed here cleared (Prod.ext accepted rfl) handed shape count above, ?_⟩
    intro reason refused
    exact ⟨stack, _, delegate_refused taken (refusal?_eq_some.1 refused)⟩

theorem seam_of_step (low : ctx.floor ≤ ctx.stack.height) (host : Host σ) (c : Container) (s : σ) :
    ∃ refusal, Seam host c ctx s (requests host c 1 ctx s) refusal ∧
      ∀ reason, refusal = some reason →
        ∃ stack t, step host c ctx s = .halt reason { ctx with stack } t := by
  have same : step host c ctx s = (step host.recorded c ctx (s, [])).view Prod.fst :=
    step_view host.recorded_refines ctx (s, [])
  have steps := course host.recorded c ctx (s, [])
  rw [same, requests_one]
  generalize step host.recorded c ctx (s, []) = result at steps ⊢
  cases steps with
  | lost missing => exact ⟨none, .lost missing, nofun⟩
  | ended found past => exact ⟨none, .ended found past, nofun⟩
  | undecoded found inside failed => exact ⟨none, .undecoded found failed, nofun⟩
  | unready here failed =>
    have blocked : ¬ ctx.Cleared c _ _ := fun h => nomatch failed.symm.trans (ready_iff_cleared.2 h)
    exact ⟨none, .uncleared here blocked, nofun⟩
  | @unpaid running instr reason t here checked failed =>
    obtain ⟨refused, rfl⟩ := Prod.mk.inj failed
    refine ⟨some reason, .unpaid here (ready_iff_cleared.1 checked) refused, ?_⟩
    rintro _ ⟨⟩
    exact ⟨ctx.stack, _, rfl⟩
  | performed here checked charged =>
    obtain ⟨refusal, seam, ends⟩ := seam_of_perform low here (ready_iff_cleared.1 checked) charged
    refine ⟨refusal, seam, ?_⟩
    intro reason refused
    obtain ⟨stack, t, halted⟩ := ends reason refused
    exact ⟨stack, t.1, congrArg (Step.view Prod.fst) halted⟩

/-! The gas that a run reports. -/

theorem external_basic (byte : UInt8) (inputs : List Word) (m : GasMeter) :
    (Host.basic.external byte inputs m).2 = m := by
  simp only [Host.basic]
  split <;> rfl

theorem perform_basic {m : GasMeter} (cleared : ctx.Cleared c running.type instr) :
    (perform .basic c running instr instr.info next ctx m).state = m := by
  cases handed : instr.isDelegated with
  | false => exact perform_state handed
  | true =>
    obtain ⟨inputs, stack, taken⟩ := DataStack.popMany_of_le cleared.inputs
    rw [perform_delegated handed, delegate_state taken, external_basic]

theorem used_step {m : GasMeter}
    (fine : ∀ reason ctx' m', step .basic c ctx m ≠ .halt reason ctx' m') :
    (step .basic c ctx m).state.used.toNat
      = m.used.toNat + ((done? .basic c ctx m).toList.map (·.info.gas.toNat)).sum := by
  have steps := course .basic c ctx m
  have carried : ∀ running instr, ctx.At c running instr → done? .basic c ctx m = some instr :=
    fun _ _ here => done?_of_fine here fine
  generalize step .basic c ctx m = result at steps fine ⊢
  cases steps with
  | ended found past =>
    rw [done?_past found past]
    rfl
  | performed here checked charged =>
    rw [carried _ _ here, perform_basic (ready_iff_cleared.1 checked), (GasMeter.used_charge charged).2.1]
    simp
  | _ => exact absurd rfl (fine _ _ _)

theorem used_history (c : Container) (ctx : Context) (m : GasMeter) (n : Nat)
    (fine : ∀ reason ctx' m', advance .basic c n ctx m ≠ .halt reason ctx' m') :
    (advance .basic c n ctx m).state.used.toNat
      = m.used.toNat + ((history .basic c n ctx m).map (·.info.gas.toNat)).sum := by
  refine history_induction (P := fun r done => (∀ reason ctx' m', r ≠ .halt reason ctx' m') →
    r.state.used.toNat = m.used.toNat + (done.map (·.info.gas.toNat)).sum) (fun _ => rfl) ?_ n fine
  intro before u done ih fine
  have earlier : u.used.toNat = _ := ih nofun
  rw [used_step fine, earlier, List.map_append, List.sum_append, Nat.add_assoc]

/-- The requests of a run are those of its steps in turn. Those of a step are as its place and its stacks say,
and an error that the host answers ends the run. So a run against a meter that does not fail reports the gas
that was used before and that of the instructions carried out. -/
theorem host_seam (host : Host σ) (c : Container) (limits : Limits) (s : σ) :
    requests host c 0 (.initial limits) s = [] ∧
    (∀ n, (∀ ctx t, advance host c n (.initial limits) s ≠ .next ctx t) →
      requests host c (n + 1) (.initial limits) s = requests host c n (.initial limits) s) ∧
    (∀ n ctx t, advance host c n (.initial limits) s = .next ctx t →
      requests host c (n + 1) (.initial limits) s
          = requests host c n (.initial limits) s ++ requests host c 1 ctx t ∧
        ∃ refusal, Seam host c ctx t (requests host c 1 ctx t) refusal ∧
          ∀ reason, refusal = some reason → ∃ u, runFor host c (n + 1) (.initial limits) s
            = some (.exceptionalHalt reason ctx.index ctx.pc ctx.returns.depth, u)) ∧
    ∀ (m m' : GasMeter) n outcome gas,
      runFor .basic c n (.initial limits) m = some (outcome, m') → outcome.gasUsed? = some gas →
      gas.toNat = m.used.toNat
        + ((history .basic c n (.initial limits) m).map (·.info.gas.toNat)).sum := by
  refine ⟨rfl, fun n ended => requests_over ended, ?_, ?_⟩
  · intro n ctx t reached
    have low : ctx.floor ≤ ctx.stack.height :=
      (invariant_of_advance Context.Grounded.transition (Context.grounded_initial limits) reached).floor_le
    obtain ⟨refusal, seam, ends⟩ := seam_of_step low host c t
    refine ⟨requests_succ reached, refusal, seam, ?_⟩
    intro reason refused
    obtain ⟨stack, u, halted⟩ := ends reason refused
    refine ⟨u, ?_⟩
    rw [runFor_eq, advance_succ reached, halted]
    rfl
  · intro m m' n outcome gas ended reports
    have total := used_history c (.initial limits) m n
    rw [runFor_eq] at ended
    generalize advance .basic c n (.initial limits) m = last at ended total
    cases last with
    | next ctx t => nomatch ended
    | halt reason ctx t =>
      cases ended
      nomatch reports
    | exit how ctx t =>
      cases ended
      have same : m'.used = gas := by
        cases how <;> exact Option.some.inj reports
      rw [← same]
      exact total nofun

end Machine
end EvmObject
