import EvmObject.Machine.DataStack.Lemmas
import EvmObject.Machine.Step
/-!
What each part of a step comes to: whether it goes on, ends the run or fails, and with which context.
Main statement: `course` lists the ways a whole step can take.
-/
namespace EvmObject

/-- The instruction at the present place, and the section that it stands in. -/
structure Context.At (c : Container) (ctx : Context) (running : CodeSection) (instr : Instruction) :
    Prop where
  found : c.sections[ctx.index]? = some running
  decoded : Instruction.decode running.code ctx.pc = .ok instr

theorem Context.At.unique {c : Container} {ctx : Context} {running running' : CodeSection}
    {instr instr' : Instruction} (h : ctx.At c running instr) (h' : ctx.At c running' instr') :
    running' = running ∧ instr' = instr := by
  have sections := h'.found.symm.trans h.found
  cases sections
  have instructions := h'.decoded.symm.trans h.decoded
  cases instructions
  exact ⟨rfl, rfl⟩

namespace Machine

variable {σ : Type} {host : Host σ} {c : Container} {code : Array UInt8} {next target : Nat}
  {jump : Option Int16} {choose : Word → Option Int16} {instr : Instruction} {info : OpcodeInfo}
  {running callee : CodeType} {ctx ctx' : Context} {s t : σ} {how : Exit} {reason : Halt}

theorem land_eq_error (h : land code next jump = .error reason) : reason = .invalidJump := by
  unfold land at h
  split at h
  · nomatch h
  · split at h
    · split at h <;> cases h
      rfl
    · cases h
      rfl

theorem land_eq_ok {pc : Nat} {offset : Int16} : land code next (some offset) = .ok pc ↔
    relativeTarget next offset = some pc ∧ pc < code.size := by
  simp only [land]
  cases relativeTarget next offset with
  | none => simp
  | some target =>
    dsimp only
    split
    · rename_i inside
      simp only [Except.ok.injEq, Option.some.injEq]
      exact ⟨fun same => ⟨same, same ▸ inside⟩, And.left⟩
    · rename_i outside
      simp only [reduceCtorEq, Option.some.injEq, false_iff, not_and]
      rintro rfl
      exact outside

theorem goTo_next (h : goTo code next jump ctx s = .next ctx' t) :
    ∃ pc, land code next jump = .ok pc ∧ ctx' = { ctx with pc } ∧ t = s := by
  unfold goTo at h
  split at h
  · cases h
    exact ⟨_, ‹_›, rfl, rfl⟩
  · nomatch h

theorem goTo_exit : goTo code next jump ctx s ≠ .exit how ctx' t := by
  unfold goTo
  split <;> nofun

theorem goTo_halt (h : goTo code next jump ctx s = .halt reason ctx' t) :
    land code next jump = .error reason ∧ ctx' = ctx := by
  unfold goTo at h
  split at h
  · nomatch h
  · cases h
    exact ⟨‹_›, rfl⟩

theorem select_next (h : select code next choose ctx s = .next ctx' t) :
    ∃ w stack pc, ctx.stack.pop ctx.floor = .ok (w, stack) ∧ land code next (choose w) = .ok pc ∧
      ctx' = { ctx with pc, stack } ∧ t = s := by
  unfold select at h
  split at h
  · obtain ⟨pc, landed, rfl, rfl⟩ := goTo_next h
    exact ⟨_, _, pc, ‹_›, landed, rfl, rfl⟩
  · nomatch h

theorem select_exit : select code next choose ctx s ≠ .exit how ctx' t := by
  unfold select
  split
  · exact goTo_exit
  · nofun

theorem select_halt (h : select code next choose ctx s = .halt reason ctx' t) :
    ∃ stack, ctx' = { ctx with stack } ∧
      (ctx.stack.pop ctx.floor = .error reason ∧ stack = ctx.stack ∨
        ∃ w, ctx.stack.pop ctx.floor = .ok (w, stack) ∧
          land code next (choose w) = .error reason) := by
  unfold select at h
  split at h
  · obtain ⟨missed, rfl⟩ := goTo_halt h
    exact ⟨_, rfl, .inr ⟨_, ‹_›, missed⟩⟩
  · cases h
    exact ⟨_, rfl, .inl ⟨‹_›, rfl⟩⟩

theorem leave_next (h : leave instr next ctx s = .next ctx' t) :
    instr.exit? = none ∧ ctx' = { ctx with pc := next } ∧ t = s := by
  unfold leave at h
  split at h
  · nomatch h
  · cases h
    exact ⟨‹_›, rfl, rfl⟩

theorem leave_exit (h : leave instr next ctx s = .exit how ctx' t) : ctx' = ctx := by
  unfold leave at h
  split at h
  · cases h
    rfl
  · nomatch h

theorem leave_halt : leave instr next ctx s ≠ .halt reason ctx' t := by
  unfold leave
  split <;> nofun

theorem delegate_next (h : delegate host instr info next ctx s = .next ctx' t) :
    instr.exit? = none ∧ ∃ inputs results left stack,
      ctx.stack.popMany ctx.floor info.inputs = .ok (inputs, left) ∧
      host.external info.byte inputs s = (.ok results, t) ∧ results.length = info.outputs ∧
      left.pushAll results = .ok stack ∧ ctx' = { ctx with pc := next, stack } := by
  unfold delegate at h
  split at h
  · nomatch h
  · split at h
    · nomatch h
    · split at h
      · split at h
        · nomatch h
        · obtain ⟨stays, rfl, rfl⟩ := leave_next h
          exact ⟨stays, _, _, _, _, ‹_›, ‹_›, ‹_›, ‹_›, rfl⟩
      · nomatch h

theorem delegate_exit (h : delegate host instr info next ctx s = .exit how ctx' t) :
    ∃ stack, ctx' = { ctx with stack } := by
  unfold delegate at h
  split at h
  · nomatch h
  · split at h
    · nomatch h
    · split at h
      · split at h
        · nomatch h
        · exact ⟨_, leave_exit h⟩
      · nomatch h

theorem delegate_halt (h : delegate host instr info next ctx s = .halt reason ctx' t) :
    ∃ stack, ctx' = { ctx with stack } ∧
      (ctx.stack.popMany ctx.floor info.inputs = .error reason ∧ stack = ctx.stack ∨
        ∃ inputs left, ctx.stack.popMany ctx.floor info.inputs = .ok (inputs, left) ∧
          (host.external info.byte inputs s = (.error reason, t) ∧ stack = left ∨
            ∃ results, host.external info.byte inputs s = (.ok results, t) ∧
              (results.length ≠ info.outputs ∧ stack = left ∧
                  reason = .hostOutputMismatch info.byte info.outputs results.length ∨
                results.length = info.outputs ∧ left.pushAll results = .error (reason, stack)))) := by
  unfold delegate at h
  split at h
  · cases h
    exact ⟨_, rfl, .inl ⟨‹_›, rfl⟩⟩
  · split at h
    · cases h
      exact ⟨_, rfl, .inr ⟨_, _, ‹_›, .inl ⟨‹_›, rfl⟩⟩⟩
    · split at h
      · split at h
        · cases h
          exact ⟨_, rfl, .inr ⟨_, _, ‹_›, .inr ⟨_, ‹_›, .inr ⟨‹_›, ‹_›⟩⟩⟩⟩
        · exact absurd h leave_halt
      · cases h
        exact ⟨_, rfl, .inr ⟨_, _, ‹_›, .inr ⟨_, ‹_›, .inl ⟨‹_›, rfl, rfl⟩⟩⟩⟩

theorem call_next (h : call c target next ctx s = .next ctx' t) :
    ∃ callee returns, c.sections[target]? = some callee ∧
      ctx.returns.push ⟨ctx.index, next, ctx.stack.height - callee.type.inputs.toNat⟩
        = .ok returns ∧
      ctx' = { ctx with index := target, pc := 0, returns } ∧ t = s := by
  unfold call at h
  split at h
  · nomatch h
  · split at h
    · nomatch h
    · cases h
      exact ⟨_, _, ‹_›, ‹_›, rfl, rfl⟩

theorem call_exit : call c target next ctx s ≠ .exit how ctx' t := by
  unfold call
  split
  · nofun
  · split <;> nofun

theorem call_halt (h : call c target next ctx s = .halt reason ctx' t) :
    ctx' = ctx ∧ (c.sections[target]? = none ∧ reason = .callTargetOutOfRange target ∨
      reason = .returnStackOverflow ctx.returns.limit) := by
  unfold call at h
  split at h
  · cases h
    exact ⟨rfl, .inl ⟨‹_›, rfl⟩⟩
  · split at h
    · rename_i full
      cases h
      unfold ReturnStack.push at full
      split at full
      · cases full
        exact ⟨rfl, .inr rfl⟩
      · cases full
    · cases h

theorem comeBack_next (h : comeBack running ctx s = .next ctx' t) :
    ∃ frame returns, ctx.returns.pop? = some (frame, returns) ∧ returns.isEmpty = false ∧
      ctx' = { ctx with index := frame.index, pc := frame.offset, returns } ∧ t = s := by
  unfold comeBack at h
  split at h
  · nomatch h
  · split at h
    · nomatch h
    · cases h
      exact ⟨_, _, ‹_›, Bool.eq_false_iff.2 ‹_›, rfl, rfl⟩

theorem comeBack_exit (h : comeBack running ctx s = .exit how ctx' t) :
    how = .success ∧ ∃ frame returns, ctx.returns.pop? = some (frame, returns) ∧
      returns.isEmpty = true ∧ ctx' = { ctx with returns } := by
  unfold comeBack at h
  split at h
  · nomatch h
  · split at h
    · cases h
      exact ⟨rfl, _, _, ‹_›, ‹_›, rfl⟩
    · nomatch h

theorem comeBack_halt (h : comeBack running ctx s = .halt reason ctx' t) :
    ctx' = ctx ∧
      reason = .outputMismatch (ctx.floor + running.outputs.toNat) ctx.stack.height := by
  unfold comeBack at h
  split at h
  · cases h
    exact ⟨rfl, rfl⟩
  · split at h <;> nomatch h

theorem callable_eq_ok : callable ctx callee = .ok () ↔
    callee.inputs.toNat ≤ ctx.stack.visible ctx.floor ∧
      ctx.stack.height ≤ ctx.stack.limit - callee.maxStackHeight.toNat ∧
      ctx.returns.isFull = false := by
  unfold callable
  rw [← DataStack.require_eq_ok]
  split
  · simp_all
  · split
    · simp; omega
    · split <;> simp_all

theorem callable_eq_error (h : callable ctx callee = .error reason) :
    ctx.stack.visible ctx.floor < callee.inputs.toNat ∧
        reason = .stackUnderflow callee.inputs.toNat (ctx.stack.visible ctx.floor) ∨
      ctx.stack.limit - callee.maxStackHeight.toNat < ctx.stack.height ∧
        reason = .callStackLimit ctx.stack.height callee.maxStackHeight ∨
      ctx.returns.isFull = true ∧ reason = .returnStackOverflow ctx.returns.limit := by
  unfold callable at h
  split at h
  · rename_i few
    cases h
    exact .inl (DataStack.require_eq_error.1 few)
  · split at h
    · cases h
      exact .inr (.inl ⟨‹_›, rfl⟩)
    · split at h
      · cases h
        exact .inr (.inr ⟨‹_›, rfl⟩)
      · nomatch h

theorem returnable_eq_error (h : returnable ctx running = .error reason) :
    reason = .outputMismatch (ctx.floor + running.outputs.toNat) ctx.stack.height := by
  unfold returnable at h
  split at h
  · nomatch h
  · cases h
    rfl

theorem returnable_eq_ok : returnable ctx running = .ok () ↔
    ctx.stack.height = ctx.floor + running.outputs.toNat := by
  unfold returnable
  split <;> simp_all

theorem ready_eq_ok (h : ready c running instr info ctx = .ok ()) :
    ctx.stack.accommodates ctx.floor info.inputs info.outputs = .ok () ∧
      (∀ target, instr = .callf target →
        ∃ callee, c.sections[target.toNat]? = some callee ∧ callable ctx callee.type = .ok ()) ∧
      (instr = .retf → returnable ctx running = .ok ()) := by
  unfold ready at h
  split at h
  · nomatch h
  · refine ⟨‹_›, ?_, ?_⟩
    · rintro target rfl
      dsimp only at h
      split at h
      · nomatch h
      · exact ⟨_, ‹_›, h⟩
    · rintro rfl
      exact h

theorem ready_eq_error (h : ready c running instr info ctx = .error reason) :
    ctx.stack.accommodates ctx.floor info.inputs info.outputs = .error reason ∨
      (∃ target, instr = .callf target ∧
        (c.sections[target.toNat]? = none ∧ reason = .callTargetOutOfRange target.toNat ∨
          ∃ callee, c.sections[target.toNat]? = some callee ∧
            callable ctx callee.type = .error reason)) ∨
      instr = .retf ∧ returnable ctx running = .error reason := by
  unfold ready at h
  cases arity : ctx.stack.accommodates ctx.floor info.inputs info.outputs with
  | error fault =>
    rw [arity] at h
    exact .inl h
  | ok checked =>
    rw [arity] at h
    cases instr with
    | callf target =>
      refine .inr (.inl ⟨target, rfl, ?_⟩)
      dsimp only at h
      cases found : c.sections[target.toNat]? with
      | none =>
        rw [found] at h
        cases h
        exact .inl ⟨rfl, rfl⟩
      | some callee =>
        rw [found] at h
        exact .inr ⟨callee, rfl, h⟩
    | retf => exact .inr (.inr ⟨rfl, h⟩)
    | _ => nomatch h

/-- The ways a step can take, with what it comes to. -/
inductive Course (host : Host σ) (c : Container) (ctx : Context) (s : σ) : Step σ → Prop
  | lost (missing : c.sections[ctx.index]? = none) :
    Course host c ctx s (.halt (.callTargetOutOfRange ctx.index) ctx s)
  | ended {running : CodeSection} (found : c.sections[ctx.index]? = some running)
      (past : running.code.size ≤ ctx.pc) :
    Course host c ctx s (.exit .success ctx s)
  | undecoded {running : CodeSection} {e : DecodeError} (found : c.sections[ctx.index]? = some running)
      (inside : ctx.pc < running.code.size)
      (failed : Instruction.decode running.code ctx.pc = .error e) :
    Course host c ctx s (.halt (.ofDecodeError e) ctx s)
  | unready {running : CodeSection} {instr : Instruction} {reason : Halt}
      (here : ctx.At c running instr)
      (failed : ready c running.type instr instr.info ctx = .error reason) :
    Course host c ctx s (.halt reason ctx s)
  | unpaid {running : CodeSection} {instr : Instruction} {reason : Halt} {t : σ}
      (here : ctx.At c running instr)
      (checked : ready c running.type instr instr.info ctx = .ok ())
      (failed : host.charge instr.info.gas s = (.error reason, t)) :
    Course host c ctx s (.halt reason ctx t)
  | performed {running : CodeSection} {instr : Instruction} {paid : σ}
      (here : ctx.At c running instr)
      (checked : ready c running.type instr instr.info ctx = .ok ())
      (charged : host.charge instr.info.gas s = (.ok (), paid)) :
    Course host c ctx s
      (perform host c running instr instr.info (ctx.pc + instr.length) ctx paid)

theorem course (host : Host σ) (c : Container) (ctx : Context) (s : σ) :
    Course host c ctx s (step host c ctx s) := by
  unfold step
  split
  · exact .lost ‹_›
  · rename_i found
    split
    · split
      · exact .undecoded found ‹_› ‹_›
      · rename_i decoded
        unfold execute
        dsimp only
        split
        · exact .unready ⟨found, decoded⟩ ‹_›
        · split
          · exact .unpaid ⟨found, decoded⟩ ‹_› ‹_›
          · exact .performed ⟨found, decoded⟩ ‹_› ‹_›
    · exact .ended found (Nat.le_of_not_lt ‹_›)

theorem step_eq_exit {running : CodeSection} (found : c.sections[ctx.index]? = some running)
    (past : running.code.size ≤ ctx.pc) (s : σ) : step host c ctx s = .exit .success ctx s := by
  simp only [step, found, if_neg (Nat.not_lt.2 past)]

theorem step_eq_execute {running : CodeSection} (here : ctx.At c running instr) (s : σ) :
    step host c ctx s = execute host c running instr ctx s := by
  obtain ⟨byte, op, found, _⟩ := Instruction.decode_eq_ok.1 here.decoded
  have inside := (Array.getElem?_eq_some_iff.1 found).1
  simp only [step, here.found, here.decoded, if_pos inside]

theorem step_eq_halt {running : CodeSection} (here : ctx.At c running instr)
    (failed : ready c running.type instr instr.info ctx = .error reason) (s : σ) :
    step host c ctx s = .halt reason ctx s := by
  rw [step_eq_execute here, execute]
  simp only [failed]

theorem step_eq_unpaid {running : CodeSection} (here : ctx.At c running instr)
    (checked : ready c running.type instr instr.info ctx = .ok ())
    (refused : host.charge instr.info.gas s = (.error reason, t)) :
    step host c ctx s = .halt reason ctx t := by
  rw [step_eq_execute here, execute]
  simp only [checked, refused]

theorem step_eq_perform {running : CodeSection} {paid : σ} (here : ctx.At c running instr)
    (checked : ready c running.type instr instr.info ctx = .ok ())
    (charged : host.charge instr.info.gas s = (.ok (), paid)) :
    step host c ctx s = perform host c running instr instr.info (ctx.pc + instr.length) ctx paid := by
  rw [step_eq_execute here, execute]
  simp only [checked, charged]

end Machine
end EvmObject
