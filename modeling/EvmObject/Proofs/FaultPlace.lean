import EvmObject.Proofs.Seam
/-!
A step that fails leaves everything in its place but the words that its instruction had taken off already.
There are such words only where a jump misses the code, and where the host refuses an instruction or answers it
with another count of results than the table has (`Loss`). Main statement: `fault_in_place`.
-/
namespace EvmObject

variable {σ : Type} {host : Host σ} {c : Container} {running : CodeSection} {instr : Instruction}
  {ctx ctx' : Context} {s t u paid : σ} {reason : Halt}

namespace DataStack

variable {stack : DataStack} {floor n : Nat} {kept ws : List Word} {w : Word}

theorem popMany_of_slots (enough : n ≤ stack.visible floor) (shape : stack.slots = kept ++ ws)
    (count : ws.length = n) : ∃ left, stack.popMany floor n = .ok (ws, left) ∧ left.slots = kept := by
  obtain ⟨inputs, left, taken⟩ := popMany_of_le enough
  obtain ⟨_, long, _, split⟩ := popMany_eq_ok.1 taken
  obtain ⟨same, rfl⟩ := List.append_inj' (split.symm.trans shape) (long.trans count.symm)
  exact ⟨left, taken, same⟩

theorem pop_of_slots (enough : 1 ≤ stack.visible floor) (shape : stack.slots = kept ++ [w]) :
    ∃ left, stack.pop floor = .ok (w, left) ∧ left.slots = kept := by
  obtain ⟨left, taken, same⟩ := popMany_of_slots enough shape rfl
  refine ⟨left, ?_, same⟩
  rw [pop_eq, taken]
  rfl

end DataStack

namespace Machine

def Misses (code : Array UInt8) (next : Nat) (offset : Int16) : Prop :=
  ∀ target, relativeTarget next offset = some target → code.size ≤ target

theorem land_eq_invalidJump {code : Array UInt8} {next : Nat} {offset : Int16} :
    land code next (some offset) = .error .invalidJump ↔ Misses code next offset := by
  simp only [land, Misses]
  cases relativeTarget next offset with
  | none => simp
  | some target =>
    by_cases inside : target < code.size
    · simp [inside]
    · simp [inside, Nat.le_of_not_lt inside]

/-- The step that begins here fails for the reason after its instruction was checked, was paid for and took
the words off, which are listed deepest first. -/
inductive Loss (host : Host σ) (c : Container) (ctx : Context) (s : σ) : Halt → List Word → Prop
  | condition {running : CodeSection} {offset : Int16} {paid : σ} {kept : List Word} {w : Word}
      (here : ctx.At c running (.rjumpi offset)) (cleared : ctx.Cleared c running.type (.rjumpi offset))
      (charged : host.charge (Instruction.rjumpi offset).info.gas s = (.ok (), paid))
      (top : ctx.stack.slots = kept ++ [w]) (holds : w ≠ 0)
      (misses : Misses running.code (ctx.pc + (Instruction.rjumpi offset).length) offset) :
    Loss host c ctx s .invalidJump [w]
  | selector {running : CodeSection} {table : JumpTable} {offset : Int16} {paid : σ} {kept : List Word}
      {w : Word} (here : ctx.At c running (.rjumpv table))
      (cleared : ctx.Cleared c running.type (.rjumpv table))
      (charged : host.charge (Instruction.rjumpv table).info.gas s = (.ok (), paid))
      (top : ctx.stack.slots = kept ++ [w]) (chosen : table.offsets[w.toNat]? = some offset)
      (misses : Misses running.code (ctx.pc + (Instruction.rjumpv table).length) offset) :
    Loss host c ctx s .invalidJump [w]
  | refused {running : CodeSection} {instr : Instruction} {reason : Halt} {paid : σ}
      {kept inputs : List Word} (here : ctx.At c running instr) (cleared : ctx.Cleared c running.type instr)
      (charged : host.charge instr.info.gas s = (.ok (), paid)) (handed : instr.isDelegated = true)
      (topmost : ctx.stack.slots = kept ++ inputs) (count : inputs.length = instr.info.inputs)
      (answer : (host.external instr.info.byte inputs paid).1 = .error reason) :
    Loss host c ctx s reason inputs
  | miscounted {running : CodeSection} {instr : Instruction} {paid : σ} {kept inputs results : List Word}
      (here : ctx.At c running instr) (cleared : ctx.Cleared c running.type instr)
      (charged : host.charge instr.info.gas s = (.ok (), paid)) (handed : instr.isDelegated = true)
      (topmost : ctx.stack.slots = kept ++ inputs) (count : inputs.length = instr.info.inputs)
      (answer : (host.external instr.info.byte inputs paid).1 = .ok results)
      (other : results.length ≠ instr.info.outputs) :
    Loss host c ctx s (.hostOutputMismatch instr.info.byte instr.info.outputs results.length) inputs

theorem select_missed {code : Array UInt8} {next : Nat} (choose : Word → Option Int16) {offset : Int16}
    {w : Word} {left : DataStack} (popped : ctx.stack.pop ctx.floor = .ok (w, left))
    (chosen : choose w = some offset) (misses : Misses code next offset) :
    select code next choose ctx s = .halt .invalidJump { ctx with stack := left } s := by
  simp only [select, popped, goTo, chosen, land_eq_invalidJump.2 misses]

theorem delegate_miscounted {info : OpcodeInfo} {next : Nat} {inputs results : List Word}
    {left : DataStack} (taken : ctx.stack.popMany ctx.floor info.inputs = .ok (inputs, left))
    (answer : (host.external info.byte inputs s).1 = .ok results) (other : results.length ≠ info.outputs) :
    delegate host instr info next ctx s
      = .halt (.hostOutputMismatch info.byte info.outputs results.length) { ctx with stack := left }
          (host.external info.byte inputs s).2 := by
  simp only [delegate, taken]
  cases answered : host.external info.byte inputs s with
  | mk result t =>
    rw [answered] at answer
    cases answer
    simp only [if_neg other]

theorem step_of_loss {lost : List Word} (loss : Loss host c ctx s reason lost) :
    ∃ stack t, step host c ctx s = .halt reason { ctx with stack } t ∧
      ctx.stack.slots = stack.slots ++ lost := by
  cases loss with
  | @condition _ offset paid _ _ here cleared charged top holds misses =>
    obtain ⟨left, popped, rfl⟩ := DataStack.pop_of_slots cleared.inputs top
    refine ⟨left, paid, ?_, top⟩
    rw [step_eq_perform here (ready_iff_cleared.2 cleared) charged]
    exact select_missed (fun w => if w = 0 then none else some offset) popped (if_neg holds) misses
  | @selector _ table _ paid _ _ here cleared charged top chosen misses =>
    obtain ⟨left, popped, rfl⟩ := DataStack.pop_of_slots cleared.inputs top
    refine ⟨left, paid, ?_, top⟩
    rw [step_eq_perform here (ready_iff_cleared.2 cleared) charged]
    exact select_missed (fun w => table.offsets[w.toNat]?) popped chosen misses
  | @refused _ instr _ paid _ _ here cleared charged handed topmost count answer =>
    obtain ⟨left, taken, rfl⟩ := DataStack.popMany_of_slots cleared.inputs topmost count
    refine ⟨left, (host.external instr.info.byte lost paid).2, ?_, topmost⟩
    rw [step_eq_perform here (ready_iff_cleared.2 cleared) charged, perform_delegated handed]
    exact delegate_refused taken answer
  | @miscounted _ instr paid _ _ _ here cleared charged handed topmost count answer other =>
    obtain ⟨left, taken, rfl⟩ := DataStack.popMany_of_slots cleared.inputs topmost count
    refine ⟨left, (host.external instr.info.byte lost paid).2, ?_, topmost⟩
    rw [step_eq_perform here (ready_iff_cleared.2 cleared) charged, perform_delegated handed]
    exact delegate_miscounted taken answer other

theorem loss_of_select {choose : Word → Option Int16}
    (fails : ∀ w kept offset, ctx.stack.slots = kept ++ [w] → choose w = some offset →
      Misses running.code (ctx.pc + instr.length) offset → Loss host c ctx s .invalidJump [w])
    (halted : select running.code (ctx.pc + instr.length) choose ctx paid = .halt reason ctx' t) :
    ctx' = ctx ∨ ∃ lost, Loss host c ctx s reason lost := by
  obtain ⟨stack, rfl, ⟨_, rfl⟩ | ⟨w, popped, missed⟩⟩ := select_halt halted
  · exact .inl rfl
  · obtain ⟨_, _, top⟩ := DataStack.pop_eq_ok.1 popped
    obtain rfl := land_eq_error missed
    cases chosen : choose w with
    | none =>
      rw [chosen] at missed
      nomatch missed
    | some offset =>
      rw [chosen] at missed
      exact .inr ⟨[w], fails w _ offset top chosen (land_eq_invalidJump.1 missed)⟩

theorem loss_of_delegate (here : ctx.At c running instr) (cleared : ctx.Cleared c running.type instr)
    (charged : host.charge instr.info.gas s = (.ok (), paid)) (handed : instr.isDelegated = true)
    {next : Nat} (halted : delegate host instr instr.info next ctx paid = .halt reason ctx' t) :
    ctx' = ctx ∨ ∃ lost, Loss host c ctx s reason lost := by
  obtain ⟨stack, rfl, ⟨_, rfl⟩ | ⟨inputs, left, taken, answer⟩⟩ := delegate_halt halted
  · exact .inl rfl
  · obtain ⟨_, count, _, topmost⟩ := DataStack.popMany_eq_ok.1 taken
    obtain ⟨refused, rfl⟩ | ⟨results, answered, ⟨other, rfl, rfl⟩ | ⟨same, full⟩⟩ := answer
    · exact .inr ⟨inputs, .refused here cleared charged handed topmost count (congrArg Prod.fst refused)⟩
    · exact .inr ⟨inputs,
        .miscounted here cleared charged handed topmost count (congrArg Prod.fst answered) other⟩
    · have room := cleared.room
      obtain ⟨limits, fewer⟩ := DataStack.height_popMany taken
      exact absurd full (DataStack.pushAll_ne_error (by omega))

theorem loss_of_step (halted : step host c ctx s = .halt reason ctx' t) :
    ctx' = ctx ∨ ∃ lost, Loss host c ctx s reason lost := by
  have steps := course host c ctx s
  generalize step host c ctx s = result at halted steps
  cases steps with
  | @performed running instr paid here checked charged =>
    have cleared := ready_iff_cleared.1 checked
    cases instr with
    | stack op =>
      simp only [perform] at halted
      split at halted
      · cases halted
      · rename_i fault
        obtain ⟨fits, _⟩ := ready_eq_ok checked
        exact absurd fault (StackOp.apply_ne_error fits)
    | rjump offset => exact .inl (goTo_halt halted).2
    | rjumpi offset =>
      refine loss_of_select ?_ halted
      intro w kept taken top chosen misses
      have holds : w ≠ 0 := by
        rintro rfl
        rw [if_pos rfl] at chosen
        cases chosen
      rw [if_neg holds] at chosen
      cases chosen
      exact .condition here cleared charged top holds misses
    | rjumpv table =>
      refine loss_of_select ?_ halted
      intro w kept offset top chosen misses
      exact .selector here cleared charged top chosen misses
    | callf target => exact .inl (call_halt halted).1
    | retf => exact .inl (comeBack_halt halted).1
    | stop => cases halted
    | invalid =>
      cases halted
      exact .inl rfl
    | finish how => exact loss_of_delegate here cleared charged rfl halted
    | delegated op => exact loss_of_delegate here cleared charged rfl halted
  | ended => cases halted
  | _ =>
    cases halted
    exact .inl rfl

/-- A step of a run that fails does so in its section, at its instruction and with the return stack as it
was, and this is what the run reports. The data stack is as it was too, unless there is a loss: then just the
words lost are gone. -/
theorem fault_in_place (host : Host σ) (c : Container) (limits : Limits) (s : σ) {n : Nat}
    (reached : advance host c n (.initial limits) s = .next ctx t)
    (halted : step host c ctx t = .halt reason ctx' u) :
    (ctx'.index = ctx.index ∧ ctx'.pc = ctx.pc ∧ ctx'.returns = ctx.returns) ∧
    runFor host c (n + 1) (.initial limits) s
      = some (.exceptionalHalt reason ctx.index ctx.pc ctx.returns.depth, u) ∧
    ((∀ lost, ¬ Loss host c ctx t reason lost) → ctx'.stack = ctx.stack) ∧
    ∀ lost, Loss host c ctx t reason lost → ctx.stack.slots = ctx'.stack.slots ++ lost := by
  refine ⟨?_, ?_, ?_, ?_⟩
  · obtain ⟨stack, rfl⟩ := step_halt halted
    exact ⟨rfl, rfl, rfl⟩
  · obtain ⟨stack, rfl⟩ := step_halt halted
    rw [runFor_eq, advance_succ reached, halted]
    rfl
  · intro kept
    obtain rfl | ⟨lost, loss⟩ := loss_of_step halted
    · rfl
    · exact absurd loss (kept lost)
  · intro lost loss
    obtain ⟨stack, v, again, shape⟩ := step_of_loss loss
    cases halted.symm.trans again
    exact shape

end Machine

def CodeSection.leap : CodeSection := ⟨⟨0, 0, 1⟩, #[0x60, 5, 0x5D, 0, 100]⟩

/-- The entry puts down a word and calls the leap. -/
def Container.overleap : Container :=
  .assemble #[⟨⟨0, 0, 2⟩, #[0x60, 7, 0xB0, 0, 1]⟩, .leap] []

def Context.leaping : Context :=
  ⟨1, 2, ⟨2, [5, 7], _, rfl⟩, ⟨2, [⟨0, 5, 1⟩, .sentinel], _, rfl⟩⟩

namespace Machine

/-- The jump fails with both frames in place, and takes its condition with it. -/
theorem fault_overleap :
    ∃ stack, step .basic .overleap .leaping ⟨100, 11⟩
        = .halt .invalidJump { Context.leaping with stack } ⟨100, 15⟩ ∧
      Context.leaping.stack.slots = stack.slots ++ [5] := by
  have reached : advance Host.basic .overleap 3 (.initial ⟨2, 2, 100⟩) (.full 100)
      = .next .leaping ⟨100, 11⟩ := by decide +kernel
  have halted : step Host.basic .overleap .leaping ⟨100, 11⟩
      = .halt .invalidJump { Context.leaping with stack := ⟨2, [7], 1, rfl⟩ } ⟨100, 15⟩ := by
    decide +kernel
  have here : Context.leaping.At .overleap .leap (.rjumpi 100) :=
    ⟨rfl, by decide +kernel⟩
  have cleared : Context.leaping.Cleared .overleap CodeSection.leap.type (.rjumpi 100) :=
    ready_iff_cleared.1 (by decide +kernel)
  have misses : Misses CodeSection.leap.code (Context.leaping.pc + (Instruction.rjumpi 100).length) 100 :=
    land_eq_invalidJump.1 (by decide +kernel)
  have top : Context.leaping.stack.slots = [7] ++ [5] := rfl
  have loss : Loss .basic .overleap .leaping ⟨100, 11⟩ .invalidJump [5] :=
    .condition here cleared rfl top (by decide) misses
  obtain ⟨_, _, _, lost⟩ := fault_in_place .basic .overleap ⟨2, 2, 100⟩ (.full 100) reached halted
  exact ⟨_, halted, lost [5] loss⟩

end Machine
end EvmObject
