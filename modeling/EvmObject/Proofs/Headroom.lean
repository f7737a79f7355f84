import EvmObject.Proofs.Faults
import EvmObject.Proofs.Validity
/-!
A call is let through only if the words there are leave room for all that its section declares, so that
every active function of a run has that room. Main statement: a run of a validated container outgrows its
data stack only in an instruction that exceeds what its section declares (`overflow_exceeds_declared`).
-/
namespace EvmObject

variable {σ : Type} {host : Host σ} {c : Container} {running : CodeSection} {instr : Instruction}
  {ctx ctx' : Context} {s t : σ} {limits : Limits} {limit l : Nat}

namespace Container

def Fits (c : Container) (limit : Nat) : Prop :=
  ∀ (index : Nat) (running : CodeSection), c.sections[index]? = some running →
    running.type.maxStackHeight.toNat ≤ limit

/-- Above the floor of each function there is room for what its section declares. The frames are those of
the function that runs in section `index` and of its callers. -/
def Room (c : Container) (limit : Nat) : (index : Nat) → List Frame → Prop
  | _, [] => True
  | index, f :: callers =>
    (∀ running, c.sections[index]? = some running →
      f.floor + running.type.maxStackHeight.toNat ≤ limit) ∧ Room c limit f.index callers

theorem fits_of_validate (valid : c.validate = .ok ()) (room : 1023 ≤ limit) : c.Fits limit := by
  intro index running found
  have bounded := bounded_of_validate valid found
  exact Nat.le_trans bounded.height_le room

end Container

namespace Context

/-- The instruction at the present place finds its inputs, and would leave more words above the floor than
its section declares. -/
def Exceeds (c : Container) (ctx : Context) : Prop :=
  ∃ running instr, ctx.At c running instr ∧ instr.info.inputs ≤ ctx.stack.visible ctx.floor ∧
    (running.type.maxStackHeight.toNat : Int)
      < ctx.stack.height - ctx.floor - instr.info.inputs + instr.info.outputs

structure Roomy (c : Container) (limit : Nat) (ctx : Context) : Prop extends ctx.Grounded where
  stack_limit : ctx.stack.limit = limit
  room : c.Room limit ctx.index ctx.returns.frames

theorem Roomy.declared_le (h : ctx.Roomy c limit) (found : c.sections[ctx.index]? = some running) :
    ctx.floor + running.type.maxStackHeight.toNat ≤ limit := by
  have room := h.room
  have live := h.depth_pos
  rw [ReturnStack.depth_eq] at live
  cases shape : ctx.returns.frames with
  | nil => simp [shape] at live
  | cons f callers =>
    rw [shape] at room
    rw [floor, ReturnStack.floor_of_frames shape]
    exact room.1 running found

theorem Roomy.exceeds (h : ctx.Roomy c limit) (here : ctx.At c running instr)
    (enough : instr.info.inputs ≤ ctx.stack.visible ctx.floor)
    (excess : ctx.stack.limit < ctx.stack.height - instr.info.inputs + instr.info.outputs) :
    ctx.Exceeds c := by
  have declared := h.declared_le here.found
  have low := h.toOrderly.floor_le
  rw [h.stack_limit] at excess
  refine ⟨running, instr, here, enough, ?_⟩
  unfold DataStack.visible at enough
  omega

theorem roomy_initial (fits : c.Fits limits.stackLimit) :
    (initial limits).Roomy c limits.stackLimit where
  toGrounded := grounded_initial limits
  stack_limit := rfl
  room := by
    refine ⟨?_, trivial⟩
    intro running found
    have := fits 0 running found
    simpa [Frame.sentinel] using this

end Context

open Machine

theorem Context.Roomy.transition (fits : c.Fits limit) (h : ctx.Roomy c limit)
    (checked : ready c running.type instr instr.info ctx = .ok ())
    (moved : Transition c running instr ctx ctx') : ctx'.Roomy c limit := by
  have grounded := h.toGrounded.transition checked moved
  have room := h.room
  have stack_limit := h.stack_limit
  cases moved with
  | along stays known landed same heights => exact ⟨grounded, same.trans stack_limit, room⟩
  | call calls found pushed =>
    refine ⟨grounded, stack_limit, ?_⟩
    rw [(ReturnStack.push_eq_ok.1 pushed).2.2]
    refine ⟨?_, room⟩
    intro callee again
    obtain ⟨callee', found', free⟩ := (ready_eq_ok checked).2.1 _ calls
    cases found'.symm.trans again
    -- The check stops at zero, so it says something only of a section that fits the limit at all.
    have headroom := (callable_eq_ok.1 free).2.1
    have := fits _ callee again
    cases found.symm.trans again
    dsimp only
    omega
  | back comesBack popped more =>
    rw [(ReturnStack.pop?_eq_some.1 popped).2] at room
    exact ⟨grounded, stack_limit, room.2⟩

namespace Machine

theorem ready_overflow {type : CodeType} {info : OpcodeInfo}
    (h : ready c type instr info ctx = .error (.stackOverflow l)) :
    info.inputs ≤ ctx.stack.visible ctx.floor ∧
      ctx.stack.limit < ctx.stack.height - info.inputs + info.outputs := by
  obtain full | ⟨_, _, ⟨_, ⟨⟩⟩ | ⟨_, _, busy⟩⟩ | ⟨_, early⟩ := ready_eq_error h
  · obtain ⟨_, ⟨⟩⟩ | ⟨enough, excess, _⟩ := DataStack.accommodates_eq_error.1 full
    exact ⟨enough, excess⟩
  · obtain ⟨_, ⟨⟩⟩ | ⟨_, ⟨⟩⟩ | ⟨_, ⟨⟩⟩ := callable_eq_error busy
  · cases returnable_eq_error early

theorem step_overflow (live : 0 < ctx.returns.depth)
    (h : step host c ctx s = .halt (.stackOverflow l) ctx' t) :
    Refusal host c ctx s (.stackOverflow l) ∨
      ∃ running instr, ctx.At c running instr ∧ instr.info.inputs ≤ ctx.stack.visible ctx.floor ∧
        ctx.stack.limit < ctx.stack.height - instr.info.inputs + instr.info.outputs := by
  obtain refused | ⟨running, instr, here, failed⟩ := unready_of_stackFault live rfl h
  · exact .inl refused
  · exact .inr ⟨running, instr, here, ready_overflow failed⟩

theorem exceeds_of_overflow (roomy : ctx.Roomy c limit)
    (halted : step host c ctx s = .halt (.stackOverflow l) ctx' t) :
    Refusal host c ctx s (.stackOverflow l) ∨ ctx'.index = ctx.index ∧ ctx.Exceeds c := by
  obtain ⟨stack, rfl⟩ := step_halt halted
  obtain refused | ⟨running, instr, here, enough, excess⟩ := step_overflow roomy.depth_pos halted
  · exact .inl refused
  · exact .inr ⟨rfl, roomy.exceeds here enough excess⟩

/-- A run of a validated container outgrows its data stack only in an instruction that exceeds what its
section declares, unless it is the host that says so; a run without such instructions does not. -/
theorem overflow_exceeds_declared (valid : c.validate = .ok ()) (room : 1023 ≤ limits.stackLimit)
    (host : Host σ) (s : σ) :
    (∀ n ctx t, advance host c n (.initial limits) s = .next ctx t →
      ∀ l ctx' u, step host c ctx t = .halt (.stackOverflow l) ctx' u →
        Refusal host c ctx t (.stackOverflow l) ∨ ctx'.index = ctx.index ∧ ctx.Exceeds c) ∧
    ((∀ n ctx t, advance host c n (.initial limits) s = .next ctx t → ¬ ctx.Exceeds c) →
      ∀ n outcome t l, runFor host c n (.initial limits) s = some (outcome, t) →
        outcome.reason? = some (.stackOverflow l) →
        ∃ m ctx u, advance host c m (.initial limits) s = .next ctx u ∧
          Refusal host c ctx u (.stackOverflow l)) := by
  have fits := Container.fits_of_validate valid room
  have roomy : ∀ n ctx t, advance host c n (.initial limits) s = .next ctx t →
      ctx.Roomy c limits.stackLimit := by
    intro n ctx t reached
    exact invariant_of_advance (Context.Roomy.transition fits) (Context.roomy_initial fits) reached
  refine ⟨?_, ?_⟩
  · intro n ctx t reached l ctx' u halted
    exact exceeds_of_overflow (roomy n ctx t reached) halted
  · intro modest n outcome t l ended failed
    obtain ⟨m, ctx, u, after, reached, halted⟩ := failed_step ended failed
    obtain refused | ⟨_, excess⟩ := exceeds_of_overflow (roomy m ctx u reached) halted
    · exact ⟨m, ctx, u, reached, refused⟩
    · exact absurd excess (modest m ctx u reached)

end Machine

/-- Puts down a word again and again, and declares none. -/
def Container.climb : Container :=
  .assemble #[⟨⟨0, 0, 0⟩, #[0x5F, 0x5C, 0xFF, 0xFC]⟩] []

def Host.free : Host Unit where
  charge _ s := (.ok (), s)
  external byte _ s := (.error (.unsupported byte), s)
  gasUsed _ := 0

def Context.climbed (limits : Limits) (pc n : Nat) : Context where
  index := 0
  pc
  stack := ⟨limits.stackLimit, .replicate n 0, n, List.length_replicate.symm⟩
  returns := .initial limits.returnLimit

namespace Machine

theorem at_climb_push (limits : Limits) (n : Nat) :
    (Context.climbed limits 0 n).At .climb ⟨⟨0, 0, 0⟩, #[0x5F, 0x5C, 0xFF, 0xFC]⟩
      (.stack (.push ⟨[], Nat.zero_le 32⟩)) := by
  have decoded : Instruction.decode #[0x5F, 0x5C, 0xFF, 0xFC] 0
      = .ok (.stack (.push ⟨[], Nat.zero_le 32⟩)) := Instruction.decode_iff.2 (by decide)
  exact ⟨rfl, decoded⟩

theorem step_climb_push {n : Nat} (room : n < limits.stackLimit) :
    step .free .climb (.climbed limits 0 n) () = .next (.climbed limits 1 (n + 1)) () := by
  have fits : (Context.climbed limits 0 n).stack.accommodates 0 0 1 = .ok () :=
    DataStack.accommodates_eq_ok.2 ⟨Nat.zero_le _, room⟩
  have pushed : StackOp.apply 0 (Context.climbed limits 0 n).stack (.push ⟨[], Nat.zero_le 32⟩)
      = .ok (Context.climbed limits 1 (n + 1)).stack := DataStack.keep_eq_ok.2 (if_pos room)
  rw [step_eq_perform (at_climb_push limits n) ((ready_eq_accommodates rfl).trans fits) rfl]
  exact perform_stack pushed

theorem step_climb_jump {n : Nat} (le : n ≤ limits.stackLimit) :
    step .free .climb (.climbed limits 1 n) () = .next (.climbed limits 0 n) () := by
  have decoded : Instruction.decode #[0x5F, 0x5C, 0xFF, 0xFC] 1 = .ok (.rjump (-4)) :=
    Instruction.decode_iff.2 (by decide)
  have here : (Context.climbed limits 1 n).At .climb ⟨⟨0, 0, 0⟩, #[0x5F, 0x5C, 0xFF, 0xFC]⟩
      (.rjump (-4)) := ⟨rfl, decoded⟩
  have fits : (Context.climbed limits 1 n).stack.accommodates 0 0 0 = .ok () :=
    DataStack.accommodates_eq_ok.2 ⟨Nat.zero_le _, le⟩
  rw [step_eq_perform here ((ready_eq_accommodates rfl).trans fits) rfl]
  rfl

theorem advance_climb {n : Nat} (le : n ≤ limits.stackLimit) :
    advance .free .climb (2 * n) (.initial limits) () = .next (.climbed limits 0 n) () := by
  induction n with
  | zero => rfl
  | succ n ih =>
    -- One word more takes a push and the jump back.
    rw [Nat.mul_succ, advance_add, ih (by omega)]
    simp only [Step.andThen, advance, step_climb_push le, step_climb_jump le]

theorem step_climb_full (limits : Limits) :
    step .free .climb (.climbed limits 0 limits.stackLimit) ()
      = .halt (.stackOverflow limits.stackLimit) (.climbed limits 0 limits.stackLimit) () := by
  have full : (Context.climbed limits 0 limits.stackLimit).stack.accommodates 0 0 1
      = .error (.stackOverflow limits.stackLimit) :=
    DataStack.accommodates_eq_error.2 (.inr ⟨Nat.zero_le _, Nat.lt_succ_self _, rfl⟩)
  exact step_eq_halt (at_climb_push limits _) ((ready_eq_accommodates rfl).trans full) ()

/-- The climb is valid, and ends with the first word too many, above what it declares. -/
theorem exceeds_climb :
    Container.climb.validate = .ok () ∧ (Context.climbed ⟨1023, 1, 0⟩ 0 1023).Exceeds .climb := by
  have valid : Container.climb.validate = .ok () := by
    have good : Container.climb.validate.isOk = true := by decide +kernel
    cases result : Container.climb.validate with
    | error e => simp [result, Except.isOk, Except.toBool] at good
    | ok u => rfl
  have only := (overflow_exceeds_declared valid (Nat.le_refl 1023) .free ()).1 _ _ _
    (advance_climb (Nat.le_refl (Limits.mk 1023 1 0).stackLimit)) _ _ _ (step_climb_full ⟨1023, 1, 0⟩)
  refine ⟨valid, ?_⟩
  obtain refused | ⟨_, excess⟩ := only
  · cases refused with
    | charge here checked answer => nomatch answer
    | external here checked charged handed taken answer => nomatch answer
  · exact excess

end Machine
end EvmObject
