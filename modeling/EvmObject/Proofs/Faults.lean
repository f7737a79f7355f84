import EvmObject.Proofs.StackSafety
/-!
The checks before an instruction suffice: what passes them fails only by a jump out of the code, as the
invalid instruction, or for what the host answers. Main statements: `fault_of_perform`, and
`unready_of_stackFault` for a whole step that fails for want of words or of room.
-/
namespace EvmObject

variable {σ : Type} {host : Host σ} {c : Container} {running : CodeSection} {instr : Instruction}
  {ctx ctx' : Context} {s t paid : σ} {reason : Halt}

def Instruction.isDelegated : Instruction → Bool
  | finish _ | delegated _ => true
  | _ => false

namespace Machine

/-- How an instruction fails that is checked and paid for. -/
inductive Fault (host : Host σ) (running : CodeSection) (instr : Instruction) (ctx : Context)
    (paid : σ) : Halt → Prop
  | jump {offset : Int16} (known : offset ∈ instr.offsets)
      (missed : land running.code (ctx.pc + instr.length) (some offset) = .error .invalidJump) :
    Fault host running instr ctx paid .invalidJump
  | invalid (same : instr = .invalid) : Fault host running instr ctx paid .invalidInstruction
  | refused {inputs : List Word} {stack : DataStack} {reason : Halt} (handed : instr.isDelegated = true)
      (taken : ctx.stack.popMany ctx.floor instr.info.inputs = .ok (inputs, stack))
      (answer : (host.external instr.info.byte inputs paid).1 = .error reason) :
    Fault host running instr ctx paid reason
  | miscounted {inputs results : List Word} {stack : DataStack} (handed : instr.isDelegated = true)
      (taken : ctx.stack.popMany ctx.floor instr.info.inputs = .ok (inputs, stack))
      (answer : (host.external instr.info.byte inputs paid).1 = .ok results)
      (count : results.length ≠ instr.info.outputs) :
    Fault host running instr ctx paid
      (.hostOutputMismatch instr.info.byte instr.info.outputs results.length)

/-- The halt is the host's answer to the step that begins here: it refuses the charge, or what is handed
to it. -/
inductive Refusal (host : Host σ) (c : Container) (ctx : Context) (s : σ) (reason : Halt) : Prop
  | charge {running : CodeSection} {instr : Instruction} (here : ctx.At c running instr)
      (checked : ready c running.type instr instr.info ctx = .ok ())
      (answer : (host.charge instr.info.gas s).1 = .error reason)
  | external {running : CodeSection} {instr : Instruction} {paid : σ} {inputs : List Word}
      {stack : DataStack} (here : ctx.At c running instr)
      (checked : ready c running.type instr instr.info ctx = .ok ())
      (charged : host.charge instr.info.gas s = (.ok (), paid)) (handed : instr.isDelegated = true)
      (taken : ctx.stack.popMany ctx.floor instr.info.inputs = .ok (inputs, stack))
      (answer : (host.external instr.info.byte inputs paid).1 = .error reason)

theorem ready_eq_accommodates {type : CodeType} {info : OpcodeInfo} (stays : instr.isTransfer = false) :
    ready c type instr info ctx
      = ctx.stack.accommodates ctx.floor info.inputs info.outputs := by
  unfold ready
  cases ctx.stack.accommodates ctx.floor info.inputs info.outputs with
  | error fault => rfl
  | ok u =>
    cases instr with
    | callf target => nomatch stays
    | retf => nomatch stays
    | _ => rfl

theorem perform_stack {info : OpcodeInfo} {next : Nat} {op : StackOp} {stack : DataStack}
    (applied : op.apply ctx.floor ctx.stack = .ok stack) :
    perform host c running (.stack op) info next ctx s = .next { ctx with pc := next, stack } s := by
  simp only [perform, applied]

theorem fault_of_land {jump : Option Int16}
    (known : ∀ offset, jump = some offset → offset ∈ instr.offsets)
    (missed : land running.code (ctx.pc + instr.length) jump = .error reason) :
    Fault host running instr ctx paid reason := by
  obtain rfl := land_eq_error missed
  cases jump with
  | none => nomatch missed
  | some offset => exact .jump (known offset rfl) missed

theorem fault_of_select {choose : Word → Option Int16} (one : 1 ≤ ctx.stack.visible ctx.floor)
    (known : ∀ w offset, choose w = some offset → offset ∈ instr.offsets)
    (h : select running.code (ctx.pc + instr.length) choose ctx paid = .halt reason ctx' t) :
    Fault host running instr ctx paid reason := by
  obtain ⟨stack, _, ⟨few, _⟩ | ⟨w, _, missed⟩⟩ := select_halt h
  · have := (DataStack.pop_eq_error.1 few).1
    unfold DataStack.visible at one
    omega
  · exact fault_of_land (known w) missed

theorem fault_of_delegate (handed : instr.isDelegated = true)
    (fits : ctx.stack.accommodates ctx.floor instr.info.inputs instr.info.outputs = .ok ())
    (h : delegate host instr instr.info (ctx.pc + instr.length) ctx paid = .halt reason ctx' t) :
    Fault host running instr ctx paid reason := by
  obtain ⟨enough, room⟩ := DataStack.accommodates_eq_ok.1 fits
  obtain ⟨_, _, ⟨few, _⟩ | ⟨inputs, left, taken, ⟨refused, _⟩ | ⟨results, answered, rest⟩⟩⟩ :=
    delegate_halt h
  · have := (DataStack.popMany_eq_error.1 few).1
    omega
  · exact .refused handed taken (congrArg Prod.fst refused)
  · obtain ⟨count, _, rfl⟩ | ⟨count, full⟩ := rest
    · exact .miscounted handed taken (congrArg Prod.fst answered) count
    · obtain ⟨limits, fewer⟩ := DataStack.height_popMany taken
      exact absurd full (DataStack.pushAll_ne_error (by omega))

theorem call_ne_halt {target next : Nat} {callee : CodeSection}
    (found : c.sections[target]? = some callee) (free : callable ctx callee.type = .ok ()) :
    call c target next ctx s ≠ .halt reason ctx' t := by
  obtain ⟨_, _, room⟩ := callable_eq_ok.1 free
  simp [call, found, ReturnStack.push, room]

theorem comeBack_ne_halt {type : CodeType} (live : 0 < ctx.returns.depth) :
    comeBack type ctx s ≠ .halt reason ctx' t := by
  unfold comeBack
  cases popped : ctx.returns.pop? with
  | none =>
    have := ReturnStack.pop?_eq_none.1 popped
    omega
  | some r =>
    dsimp only
    split <;> nofun

theorem fault_of_perform (live : 0 < ctx.returns.depth)
    (checked : ready c running.type instr instr.info ctx = .ok ())
    (h : perform host c running instr instr.info (ctx.pc + instr.length) ctx paid
      = .halt reason ctx' t) : Fault host running instr ctx paid reason := by
  obtain ⟨fits, calls, _⟩ := ready_eq_ok checked
  have enough := (DataStack.accommodates_eq_ok.1 fits).1
  cases instr with
  | stack op =>
    simp only [perform] at h
    split at h
    · cases h
    · rename_i fault
      exact absurd fault (StackOp.apply_ne_error fits)
  | rjump offset =>
    have known : ∀ taken, some offset = some taken → taken ∈ (Instruction.rjump offset).offsets := by
      rintro _ ⟨⟩
      exact List.mem_singleton_self offset
    exact fault_of_land known (goTo_halt h).1
  | rjumpi offset => exact fault_of_select enough (fun _ _ => Instruction.mem_offsets_rjumpi) h
  | rjumpv table => exact fault_of_select enough (fun _ _ => Instruction.mem_offsets_rjumpv) h
  | callf target =>
    obtain ⟨callee, found, free⟩ := calls target rfl
    exact absurd h (call_ne_halt found free)
  | retf => exact absurd h (comeBack_ne_halt live)
  | stop => cases h
  | invalid =>
    cases h
    exact .invalid rfl
  | finish how => exact fault_of_delegate rfl fits h
  | delegated op => exact fault_of_delegate rfl fits h

/-- A step that fails for want of words or of room does so in its checks, unless it is the host that says
so. -/
theorem unready_of_stackFault (live : 0 < ctx.returns.depth) (fault : reason.isStackFault)
    (halted : step host c ctx s = .halt reason ctx' t) :
    Refusal host c ctx s reason ∨ ∃ running instr, ctx.At c running instr ∧
      ready c running.type instr instr.info ctx = .error reason := by
  have steps := course host c ctx s
  generalize step host c ctx s = result at halted steps
  cases steps with
  | lost =>
    cases halted
    nomatch fault
  | ended => cases halted
  | @undecoded _ e _ _ _ =>
    cases halted
    rw [Halt.isStackFault_ofDecodeError] at fault
    nomatch fault
  | unready here failed =>
    cases halted
    exact .inr ⟨_, _, here, failed⟩
  | unpaid here checked failed =>
    cases halted
    exact .inl (.charge here checked (congrArg Prod.fst failed))
  | performed here checked charged =>
    cases fault_of_perform live checked halted with
    | refused handed taken answer => exact .inl (.external here checked charged handed taken answer)
    | _ => nomatch fault

end Machine
end EvmObject
