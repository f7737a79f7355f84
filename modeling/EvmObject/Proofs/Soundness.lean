import EvmObject.Proofs.Decoding
import EvmObject.Proofs.StackSafety
/-!
Validated containers run on track: a run is always where an instruction starts or a section ends, and so
are all places that it is going to return to. Main statement: such a run does not fail for want of an
instruction, a jump target or a section (`validated_run_on_track`).
-/
namespace EvmObject

variable {σ : Type} {host : Host σ} {c : Container} {running : CodeSection} {instr : Instruction}
  {ctx ctx' : Context} {s t : σ} {reason : Halt}

/-- Faults of a run that is where it should not be. -/
def Halt.isAstray : Halt → Bool
  | undefinedInstruction _ | truncatedOperand _ | invalidJump | callTargetOutOfRange _ => true
  | _ => false

theorem Halt.isAstray_of_isStackFault (h : reason.isStackFault) : reason.isAstray = false := by
  cases reason with
  | stackUnderflow | stackOverflow => rfl
  | _ => nomatch h

/-- A host that refuses requests for reasons of its own, and not for those of the machine. -/
structure Host.Tactful (host : Host σ) : Prop where
  charge : ∀ amount s reason, (host.charge amount s).1 = .error reason → reason.isAstray = false
  external : ∀ byte inputs s reason, (host.external byte inputs s).1 = .error reason →
    reason.isAstray = false

def Container.IsPlace (c : Container) (index pc : Nat) : Prop :=
  ∃ running, c.sections[index]? = some running ∧ running.IsBoundary pc

/-- The run is at a place, and returns to places. -/
structure Context.OnTrack (c : Container) (ctx : Context) : Prop where
  here : c.IsPlace ctx.index ctx.pc
  back : ∀ f ∈ ctx.returns.frames, c.IsPlace f.index f.offset

def Step.OnTrack (c : Container) : Step σ → Prop
  | .next ctx _ | .exit _ ctx _ => ctx.OnTrack c
  | .halt reason ctx _ => ctx.OnTrack c ∧ reason.isAstray = false

namespace Container.Legal

theorem section_at {index : Nat} (legal : c.Legal) (found : c.sections[index]? = some running) :
    running.Legal c.sections.size :=
  legal.sections running (Array.mem_of_getElem? found)

theorem place_entry (legal : c.Legal) : c.IsPlace 0 0 :=
  have found := Array.getElem?_eq_getElem legal.entry
  ⟨_, found, (legal.section_at found).entry⟩

end Container.Legal

theorem Context.OnTrack.boundary (h : ctx.OnTrack c) (found : c.sections[ctx.index]? = some running) :
    running.IsBoundary ctx.pc := by
  obtain ⟨running', found', boundary⟩ := h.here
  cases found.symm.trans found'
  exact boundary

theorem Context.onTrack_initial (legal : c.Legal) (limits : Limits) : (initial limits).OnTrack c where
  here := legal.place_entry
  back f member := by
    obtain rfl : f = .sentinel := List.mem_singleton.1 member
    exact legal.place_entry

namespace Machine

theorem Transition.onTrack (legal : c.Legal) (h : ctx.OnTrack c) (here : ctx.At c running instr)
    (moved : Transition c running instr ctx ctx') : ctx'.OnTrack c := by
  have fine := legal.section_at here.found
  have boundary := h.boundary here.found
  cases moved with
  | along stays known landed =>
    obtain ⟨target, landed', arrived⟩ := fine.land boundary here.decoded known
    cases landed.symm.trans landed'
    exact ⟨⟨running, here.found, arrived⟩, h.back⟩
  | call calls found pushed =>
    have resumes := fine.after boundary here.decoded
    rw [calls] at resumes
    refine ⟨⟨_, found, (legal.section_at found).entry⟩, ?_⟩
    rw [(ReturnStack.push_eq_ok.1 pushed).2.2]
    exact List.forall_mem_cons.2 ⟨⟨running, here.found, resumes⟩, h.back⟩
  | back comesBack popped =>
    have places := h.back
    rw [(ReturnStack.pop?_eq_some.1 popped).2, List.forall_mem_cons] at places
    exact ⟨places.1, places.2⟩

theorem callable_steady {callee : CodeType} (h : callable ctx callee = .error reason) :
    reason.isAstray = false := by
  obtain ⟨_, rfl⟩ | ⟨_, rfl⟩ | ⟨_, rfl⟩ := callable_eq_error h <;> rfl

theorem ready_steady {type : CodeType} {info : OpcodeInfo}
    (calls : ∀ target, instr = .callf target → ∃ callee, c.sections[target.toNat]? = some callee)
    (h : ready c type instr info ctx = .error reason) : reason.isAstray = false := by
  obtain few | ⟨target, called, missing | ⟨callee, _, busy⟩⟩ | ⟨_, early⟩ := ready_eq_error h
  · exact Halt.isAstray_of_isStackFault (DataStack.accommodates_fault few)
  · obtain ⟨callee, found⟩ := calls target called
    nomatch found.symm.trans missing.1
  · exact callable_steady busy
  · rw [returnable_eq_error early]
    rfl

theorem select_steady {code : Array UInt8} {next : Nat} {choose : Word → Option Int16}
    (lands : ∀ w, ∃ pc, land code next (choose w) = .ok pc)
    (h : select code next choose ctx s = .halt reason ctx' t) : reason.isAstray = false := by
  obtain ⟨stack, _, ⟨few, _⟩ | ⟨w, _, missed⟩⟩ := select_halt h
  · exact Halt.isAstray_of_isStackFault (DataStack.pop_fault few)
  · obtain ⟨pc, landed⟩ := lands w
    nomatch landed.symm.trans missed

theorem delegate_steady (tactful : host.Tactful) {info : OpcodeInfo} {next : Nat}
    (h : delegate host instr info next ctx s = .halt reason ctx' t) : reason.isAstray = false := by
  obtain ⟨_, _, ⟨few, _⟩ | ⟨inputs, _, _, ⟨refused, _⟩ | ⟨results, _, rest⟩⟩⟩ := delegate_halt h
  · exact Halt.isAstray_of_isStackFault (DataStack.popMany_fault few)
  · exact tactful.external info.byte inputs s reason (congrArg Prod.fst refused)
  · obtain ⟨_, _, rfl⟩ | ⟨_, full⟩ := rest
    · rfl
    · exact Halt.isAstray_of_isStackFault (DataStack.pushAll_fault full)

theorem callee_of_onTrack (legal : c.Legal) (h : ctx.OnTrack c) (here : ctx.At c running instr)
    (target : UInt16) (calls : instr = .callf target) :
    ∃ callee, c.sections[target.toNat]? = some callee := by
  have fine := legal.section_at here.found
  have line := fine.line_of_decode (h.boundary here.found) here.decoded
  exact ⟨_, Array.getElem?_eq_getElem (fine.calls _ line target calls)⟩

theorem perform_steady (legal : c.Legal) (tactful : host.Tactful) (h : ctx.OnTrack c)
    (here : ctx.At c running instr)
    (failed : perform host c running instr instr.info (ctx.pc + instr.length) ctx s
      = .halt reason ctx' t) : reason.isAstray = false := by
  -- A jump that can be chosen here does not fail.
  have lands : ∀ jump, (∀ offset, jump = some offset → offset ∈ instr.offsets) →
      ∃ pc, land running.code (ctx.pc + instr.length) jump = .ok pc := by
    intro jump known
    obtain ⟨pc, landed, _⟩ :=
      (legal.section_at here.found).land (h.boundary here.found) here.decoded known
    exact ⟨pc, landed⟩
  cases instr with
  | stack op =>
    simp only [perform] at failed
    split at failed
    · cases failed
    · rename_i fault
      cases failed
      exact Halt.isAstray_of_isStackFault (StackOp.apply_fault fault)
  | rjump offset =>
    obtain ⟨pc, landed⟩ := lands (some offset) (by rintro _ ⟨⟩; exact List.mem_cons_self)
    cases landed.symm.trans (goTo_halt failed).1
  | rjumpi offset =>
    exact select_steady (fun w => lands _ fun _ => Instruction.mem_offsets_rjumpi) failed
  | rjumpv table =>
    exact select_steady (fun w => lands _ fun _ => Instruction.mem_offsets_rjumpv) failed
  | callf target =>
    obtain ⟨missing, _⟩ | full := (call_halt failed).2
    · obtain ⟨callee, found⟩ := callee_of_onTrack legal h here target rfl
      cases found.symm.trans missing
    · rw [full]
      rfl
  | retf =>
    rw [(comeBack_halt failed).2]
    rfl
  | stop => cases failed
  | invalid =>
    cases failed
    rfl
  | finish how => exact delegate_steady tactful failed
  | delegated op => exact delegate_steady tactful failed

theorem step_steady (legal : c.Legal) (tactful : host.Tactful) (h : ctx.OnTrack c)
    (failed : step host c ctx s = .halt reason ctx' t) : reason.isAstray = false := by
  have steps := course host c ctx s
  generalize step host c ctx s = result at failed steps
  cases steps with
  | lost missing =>
    obtain ⟨running, found, _⟩ := h.here
    nomatch found.symm.trans missing
  | ended => nomatch failed
  | undecoded found inside fault =>
    obtain ⟨instr, decoded⟩ := (legal.section_at found).decodes (h.boundary found) inside
    nomatch decoded.symm.trans fault
  | unready here fault =>
    cases failed
    exact ready_steady (callee_of_onTrack legal h here) fault
  | unpaid here checked refused =>
    cases failed
    exact tactful.charge _ s reason (congrArg Prod.fst refused)
  | performed here checked charged => exact perform_steady legal tactful h here failed

theorem step_onTrack (legal : c.Legal) (tactful : host.Tactful) (h : ctx.OnTrack c) (s : σ) :
    (step host c ctx s).OnTrack c := by
  cases stepped : step host c ctx s with
  | next ctx' t =>
    obtain ⟨running, instr, here, _, moved⟩ := step_next stepped
    exact moved.onTrack legal h here
  | exit how ctx' t =>
    obtain ⟨stack, rfl⟩ | ⟨frame, returns, popped, _, rfl⟩ := step_exit stepped
    · exact ⟨h.here, h.back⟩
    · refine ⟨h.here, fun f member => h.back f ?_⟩
      rw [(ReturnStack.pop?_eq_some.1 popped).2]
      exact List.mem_cons_of_mem _ member
  | halt reason ctx' t =>
    have steady := step_steady legal tactful h stepped
    obtain ⟨stack, rfl⟩ := step_halt stepped
    exact ⟨⟨h.here, h.back⟩, steady⟩

theorem onTrack_of_advance (legal : c.Legal) {limits : Limits} {n : Nat}
    (reached : advance host c n (.initial limits) s = .next ctx t) : ctx.OnTrack c :=
  invariant_of_advance_at (fun h here _ moved => moved.onTrack legal h here)
    (Context.onTrack_initial legal limits) reached

theorem advance_onTrack (legal : c.Legal) (tactful : host.Tactful) (limits : Limits) (s : σ)
    (n : Nat) : (advance host c n (.initial limits) s).OnTrack c :=
  advance_induction (P := Step.OnTrack c) (Context.onTrack_initial legal limits)
    (fun _ t h => step_onTrack legal tactful h t) n

/-- A run of a validated container stays on track from its first to its last context, so that it does not
end for being astray. -/
theorem validated_run_on_track {bytes : List UInt8} (valid : Container.load bytes = .ok c)
    (tactful : host.Tactful) (limits : Limits) (s : σ) (n : Nat) :
    (advance host c n (.initial limits) s).ctx.OnTrack c ∧
      ∀ outcome t, runFor host c n (.initial limits) s = some (outcome, t) →
        ∀ reason, outcome.reason? = some reason → reason.isAstray = false := by
  have onTrack := advance_onTrack (Container.legal_of_load valid) tactful limits s n
  rw [runFor_eq]
  generalize advance host c n (.initial limits) s = reached at onTrack ⊢
  cases reached with
  | next ctx u => exact ⟨onTrack, nofun⟩
  | exit how ctx u =>
    refine ⟨onTrack, ?_⟩
    rintro _ _ ⟨⟩ reason failed
    cases how <;> nomatch failed
  | halt fault ctx u =>
    refine ⟨onTrack.1, ?_⟩
    rintro _ _ ⟨⟩ reason ⟨⟩
    exact onTrack.2

end Machine

theorem Host.tactful_basic : Host.basic.Tactful where
  charge amount m reason refused := by
    simp only [Host.basic, GasMeter.charge] at refused
    split at refused
    · cases refused
      rfl
    · split at refused
      · cases refused
        rfl
      · cases refused
  external byte inputs m reason refused := by
    simp only [Host.basic] at refused
    split at refused
    · cases refused
    · cases refused
      rfl

theorem Container.load_of_toOption {bytes : List UInt8} (h : (load bytes).toOption = some c) :
    load bytes = .ok c := by
  cases result : load bytes with
  | error e =>
    rw [result] at h
    nomatch h
  | ok d =>
    rw [result] at h
    exact congrArg Except.ok (Option.some.inj h)

theorem Container.load_relay : load relay.encode = .ok relay :=
  load_of_toOption (by decide +kernel)

open Machine in
/-- The relay is on track in the innermost function, and ends by its stop with the ninth step. -/
theorem validated_relay_on_track :
    (advance Host.basic .relay 5 (.initial .default) (.full 100)).ctx.OnTrack .relay ∧
      ∃ outcome t, runFor Host.basic .relay 9 (.initial .default) (.full 100) = some (outcome, t) ∧
        ∀ reason, outcome.reason? = some reason → reason.isAstray = false := by
  have fine := validated_run_on_track Container.load_relay Host.tactful_basic .default (.full 100)
  have ended : runFor Host.basic .relay 9 (.initial .default) (.full 100)
      = some (.success 27 [7], ⟨100, 27⟩) := by decide +kernel
  exact ⟨(fine 5).1, _, _, ended, (fine 9).2 _ _ ended⟩

end EvmObject
