import EvmObject.Proofs.Advance
import EvmObject.Validation
/-!
What a step does to the context, told without the host. One that goes on stays in its function, calls
another one or returns (`Transition`); one that ends the run stays where it is. Main statement: the
return stack changes at its top only, so that frames not yet popped are still there (`frames_stay`).
-/
namespace EvmObject

variable {σ : Type} {host : Host σ} {c : Container} {running : CodeSection} {instr : Instruction}
  {info : OpcodeInfo} {ctx ctx' : Context} {s t : σ} {how : Exit} {reason : Halt}

def Instruction.isTransfer : Instruction → Bool
  | callf _ | retf => true
  | _ => false

theorem Instruction.mem_offsets_rjumpi {offset taken : Int16} {w : Word}
    (chosen : (if w = 0 then none else some offset) = some taken) :
    taken ∈ (rjumpi offset).offsets := by
  split at chosen
  · nomatch chosen
  · cases chosen
    exact List.mem_singleton_self offset

theorem Instruction.mem_offsets_rjumpv {table : JumpTable} {i : Nat} {taken : Int16}
    (chosen : table.offsets[i]? = some taken) : taken ∈ (rjumpv table).offsets :=
  List.mem_of_getElem? chosen

namespace Machine

/-- From before an instruction to after it. -/
inductive Transition (c : Container) (running : CodeSection) (instr : Instruction) (ctx : Context) :
    Context → Prop
  | along {jump : Option Int16} {pc : Nat} {stack : DataStack}
      (stays : instr.isTransfer = false)
      (known : ∀ offset, jump = some offset → offset ∈ instr.offsets)
      (landed : land running.code (ctx.pc + instr.length) jump = .ok pc)
      (limits : stack.limit = ctx.stack.limit)
      (heights : stack.height + instr.info.inputs = ctx.stack.height + instr.info.outputs) :
    Transition c running instr ctx { ctx with pc, stack }
  | call {target : UInt16} {callee : CodeSection} {returns : ReturnStack}
      (calls : instr = .callf target) (found : c.sections[target.toNat]? = some callee)
      (pushed : ctx.returns.push
        ⟨ctx.index, ctx.pc + 3, ctx.stack.height - callee.type.inputs.toNat⟩ = .ok returns) :
    Transition c running instr ctx { ctx with index := target.toNat, pc := 0, returns }
  | back {frame : Frame} {returns : ReturnStack}
      (comesBack : instr = .retf) (popped : ctx.returns.pop? = some (frame, returns))
      (more : returns.isEmpty = false) :
    Transition c running instr ctx
      { ctx with index := frame.index, pc := frame.offset, returns }

theorem transition_of_perform
    (h : perform host c running instr instr.info (ctx.pc + instr.length) ctx s = .next ctx' t) :
    Transition c running instr ctx ctx' := by
  cases instr with
  | stack op =>
    simp only [perform] at h
    split at h
    · rename_i stack applied
      cases h
      obtain ⟨limits, heights⟩ := StackOp.height_apply applied
      have landed : land running.code (ctx.pc + (Instruction.stack op).length) none = .ok _ := rfl
      have known : ∀ offset, none = some offset → offset ∈ (Instruction.stack op).offsets := by
        rintro _ ⟨⟩
      exact .along rfl known landed limits heights
    · cases h
  | rjump offset =>
    obtain ⟨pc, landed, rfl, _⟩ := goTo_next h
    exact .along rfl (by rintro _ ⟨⟩; exact List.mem_singleton_self offset) landed rfl rfl
  | rjumpi offset =>
    obtain ⟨w, stack, pc, popped, landed, rfl, _⟩ := select_next h
    obtain ⟨limits, one, _⟩ := DataStack.height_pop popped
    exact .along rfl (fun _ => Instruction.mem_offsets_rjumpi) landed limits one
  | rjumpv table =>
    obtain ⟨w, stack, pc, popped, landed, rfl, _⟩ := select_next h
    obtain ⟨limits, one, _⟩ := DataStack.height_pop popped
    exact .along rfl (fun _ => Instruction.mem_offsets_rjumpv) landed limits one
  | callf target =>
    obtain ⟨callee, returns, found, pushed, rfl, _⟩ := call_next h
    exact .call rfl found pushed
  | retf =>
    obtain ⟨frame, returns, popped, more, rfl, _⟩ := comeBack_next h
    exact .back rfl popped more
  | stop => cases h
  | invalid => cases h
  | finish how => cases (delegate_next h).1
  | delegated op =>
    obtain ⟨_, inputs, results, left, stack, popped, _, count, pushed, rfl⟩ := delegate_next h
    obtain ⟨limits₁, fewer⟩ := DataStack.height_popMany popped
    obtain ⟨limits₂, more⟩ := DataStack.height_pushAll pushed
    have landed : land running.code (ctx.pc + (Instruction.delegated op).length) none = .ok _ := rfl
    have known : ∀ offset, none = some offset → offset ∈ (Instruction.delegated op).offsets := by
      rintro _ ⟨⟩
    exact .along rfl known landed (limits₂.trans limits₁) (by omega)

theorem Transition.returns_limit (moved : Transition c running instr ctx ctx') :
    ctx'.returns.limit = ctx.returns.limit := by
  cases moved with
  | along => rfl
  | call calls found pushed => exact (ReturnStack.push_eq_ok.1 pushed).2.1
  | back comesBack popped => exact (ReturnStack.pop?_eq_some.1 popped).1

theorem step_next (h : step host c ctx s = .next ctx' t) :
    ∃ running instr, ctx.At c running instr ∧
      ready c running.type instr instr.info ctx = .ok () ∧
      Transition c running instr ctx ctx' := by
  have steps := course host c ctx s
  generalize step host c ctx s = result at h steps
  cases steps with
  | performed here checked charged => exact ⟨_, _, here, checked, transition_of_perform h⟩
  | _ => nomatch h

theorem step_halt (h : step host c ctx s = .halt reason ctx' t) :
    ∃ stack, ctx' = { ctx with stack } := by
  have steps := course host c ctx s
  generalize step host c ctx s = result at h steps
  cases steps with
  | @performed running instr paid here checked charged =>
    cases instr with
    | stack op =>
      simp only [perform] at h
      split at h
      · cases h
      · cases h
        exact ⟨_, rfl⟩
    | rjump offset => exact ⟨_, (goTo_halt h).2⟩
    | rjumpi offset =>
      obtain ⟨stack, same, _⟩ := select_halt h
      exact ⟨stack, same⟩
    | rjumpv table =>
      obtain ⟨stack, same, _⟩ := select_halt h
      exact ⟨stack, same⟩
    | callf target => exact ⟨_, (call_halt h).1⟩
    | retf => exact ⟨_, (comeBack_halt h).1⟩
    | stop => cases h
    | invalid =>
      cases h
      exact ⟨_, rfl⟩
    | finish how =>
      obtain ⟨stack, same, _⟩ := delegate_halt h
      exact ⟨stack, same⟩
    | delegated op =>
      obtain ⟨stack, same, _⟩ := delegate_halt h
      exact ⟨stack, same⟩
  | ended => cases h
  | _ =>
    cases h
    exact ⟨_, rfl⟩

/-- From before the last step of a run that did not fail to after it. -/
inductive Ending (c : Container) (ctx : Context) : Exit → Context → Prop
  | past {running : CodeSection} (found : c.sections[ctx.index]? = some running)
      (outside : running.code.size ≤ ctx.pc) : Ending c ctx .success ctx
  | stay {running : CodeSection} {instr : Instruction} {how : Exit} {stack : DataStack}
      (here : ctx.At c running instr) (stays : instr.isTransfer = false) :
    Ending c ctx how { ctx with stack }
  | back {running : CodeSection} {frame : Frame} {returns : ReturnStack}
      (here : ctx.At c running .retf)
      (height : ctx.stack.height = ctx.floor + running.type.outputs.toNat)
      (popped : ctx.returns.pop? = some (frame, returns)) (last : returns.isEmpty = true) :
    Ending c ctx .success { ctx with returns }

theorem step_ending (h : step host c ctx s = .exit how ctx' t) : Ending c ctx how ctx' := by
  have steps := course host c ctx s
  generalize step host c ctx s = result at h steps
  cases steps with
  | ended found past =>
    cases h
    exact .past found past
  | @performed running instr paid here checked charged =>
    cases instr with
    | stack op =>
      simp only [perform] at h
      split at h <;> cases h
    | rjump offset => exact absurd h goTo_exit
    | rjumpi offset => exact absurd h select_exit
    | rjumpv table => exact absurd h select_exit
    | callf target => exact absurd h call_exit
    | retf =>
      obtain ⟨rfl, frame, returns, popped, last, rfl⟩ := comeBack_exit h
      exact .back here (returnable_eq_ok.1 ((ready_eq_ok checked).2.2 rfl)) popped last
    | stop =>
      cases h
      exact .stay here rfl
    | invalid => cases h
    | finish exit =>
      obtain ⟨stack, rfl⟩ := delegate_exit h
      exact .stay here rfl
    | delegated op =>
      obtain ⟨stack, rfl⟩ := delegate_exit h
      exact .stay here rfl
  | _ => cases h

theorem step_exit (h : step host c ctx s = .exit how ctx' t) :
    (∃ stack, ctx' = { ctx with stack }) ∨
      ∃ frame returns, ctx.returns.pop? = some (frame, returns) ∧ returns.isEmpty = true ∧
        ctx' = { ctx with returns } := by
  cases step_ending h with
  | past => exact .inl ⟨_, rfl⟩
  | stay => exact .inl ⟨_, rfl⟩
  | back here height popped last => exact .inr ⟨_, _, popped, last, rfl⟩

theorem step_frames (host : Host σ) (c : Container) (ctx : Context) (s : σ) :
    (step host c ctx s).ctx.returns.frames = ctx.returns.frames ∨
      (∃ f, (step host c ctx s).ctx.returns.frames = f :: ctx.returns.frames) ∨
      ∃ f, ctx.returns.frames = f :: (step host c ctx s).ctx.returns.frames := by
  cases stepped : step host c ctx s with
  | next ctx' t =>
    obtain ⟨running, instr, _, _, moved⟩ := step_next stepped
    cases moved with
    | along => exact .inl rfl
    | call calls found pushed =>
      exact .inr (.inl ⟨_, (ReturnStack.push_eq_ok.1 pushed).2.2⟩)
    | back comesBack popped => exact .inr (.inr ⟨_, (ReturnStack.pop?_eq_some.1 popped).2⟩)
  | exit how ctx' t =>
    obtain ⟨stack, rfl⟩ | ⟨frame, returns, popped, _, rfl⟩ := step_exit stepped
    · exact .inl rfl
    · exact .inr (.inr ⟨_, (ReturnStack.pop?_eq_some.1 popped).2⟩)
  | halt reason ctx' t =>
    obtain ⟨stack, rfl⟩ := step_halt stepped
    exact .inl rfl

/-- The lowest frames are still there as long as the return stack has not been lower. -/
theorem frames_stay {lowest : List Frame} {n : Nat} (there : lowest <:+ ctx.returns.frames)
    (stays : ∀ m ≤ n, lowest.length ≤ (advance host c m ctx s).ctx.returns.depth) :
    lowest <:+ (advance host c n ctx s).ctx.returns.frames := by
  induction n with
  | zero => exact there
  | succ n ih =>
    have before := ih fun m le => stays m (by omega)
    have after := stays (n + 1) (Nat.le_refl _)
    rw [ReturnStack.depth_eq] at after
    rw [advance] at after ⊢
    generalize advance host c n ctx s = reached at before after ⊢
    cases reached with
    | next mid t =>
      obtain same | ⟨f, pushed⟩ | ⟨f, popped⟩ := step_frames host c mid t
      · exact same.symm ▸ before
      · exact pushed.symm ▸ before.trans (List.suffix_cons f _)
      · change lowest <:+ mid.returns.frames at before
        rw [popped, List.suffix_cons_iff] at before
        obtain whole | rest := before
        · rw [whole, List.length_cons] at after
          exact absurd after (Nat.not_succ_le_self _)
        · exact rest
    | exit how mid t => exact before
    | halt reason mid t => exact before

theorem StaysAbove.depth_le {depth n : Nat} (stays : StaysAbove host c depth n ctx s)
    (start : depth ≤ ctx.returns.depth) :
    ∀ m ≤ n, depth ≤ (advance host c m ctx s).ctx.returns.depth := by
  intro m le
  -- Before the last step there was one frame more at least, and a step takes off no more than one.
  cases m with
  | zero => exact start
  | succ m =>
    have above := stays m (by omega)
    rw [advance]
    generalize advance host c m ctx s = reached at above ⊢
    cases reached with
    | next mid t =>
      change depth < mid.returns.depth at above
      change _ ≤ (step host c mid t).ctx.returns.depth
      have shape := step_frames host c mid t
      simp only [ReturnStack.depth_eq] at above ⊢
      obtain same | ⟨f, pushed⟩ | ⟨f, popped⟩ := shape
      · rw [same]
        omega
      · rw [pushed, List.length_cons]
        omega
      · rw [popped, List.length_cons] at above
        omega
    | exit how mid t => exact Nat.le_of_lt above
    | halt reason mid t => exact Nat.le_of_lt above

end Machine
end EvmObject
