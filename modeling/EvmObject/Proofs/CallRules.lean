import EvmObject.Proofs.CallRoom
import EvmObject.Proofs.Seam
import EvmObject.Proofs.Soundness
/-!
The rules of calls and returns as they are laid down for the default limits: what stands in the way of one, in
which order, what the host is asked, and what a call or a return changes that goes through. Main statement: every
run of a validated container follows them (`transfers_follow_rules`).
-/
namespace EvmObject

variable {σ : Type} {host : Host σ} {c : Container} {running callee : CodeSection} {type : CodeType}
  {instr : Instruction} {ctx ctx' : Context} {s t : σ} {limits : Limits} {target : UInt16}
  {asked : List Request} {result : Step σ}

namespace Machine

/-- What is asked of the host, and what the step comes to, when the section at `target` is called, a function of
this type. Its arguments come first, then its headroom, then its frame, then the charge. -/
inductive CallRule (host : Host σ) (type : CodeType) (target : Nat) (ctx : Context) (s : σ) :
    List Request → Step σ → Prop
  | arguments (few : ctx.stack.height - ctx.floor < type.inputs.toNat) :
    CallRule host type target ctx s []
      (.halt (.stackUnderflow type.inputs.toNat (ctx.stack.height - ctx.floor)) ctx s)
  | headroom (enough : type.inputs.toNat ≤ ctx.stack.height - ctx.floor)
      (high : 1024 < ctx.stack.height + type.maxStackHeight.toNat) :
    CallRule host type target ctx s []
      (.halt (.callStackLimit ctx.stack.height type.maxStackHeight) ctx s)
  | frame (enough : type.inputs.toNat ≤ ctx.stack.height - ctx.floor)
      (room : ctx.stack.height + type.maxStackHeight.toNat ≤ 1024) (full : 1024 ≤ ctx.returns.depth) :
    CallRule host type target ctx s [] (.halt (.returnStackOverflow 1024) ctx s)
  | refused {reason : Halt} {t : σ} (enough : type.inputs.toNat ≤ ctx.stack.height - ctx.floor)
      (room : ctx.stack.height + type.maxStackHeight.toNat ≤ 1024) (free : ctx.returns.depth < 1024)
      (answer : host.charge 5 s = (.error reason, t)) :
    CallRule host type target ctx s [.charge 5] (.halt reason ctx t)
  /-- Nothing else of the context changes, the words of the data stack in particular. -/
  | enters {t : σ} {returns : ReturnStack} (enough : type.inputs.toNat ≤ ctx.stack.height - ctx.floor)
      (room : ctx.stack.height + type.maxStackHeight.toNat ≤ 1024) (free : ctx.returns.depth < 1024)
      (answer : host.charge 5 s = (.ok (), t)) (limit : returns.limit = ctx.returns.limit)
      (pushed : returns.frames
        = ⟨ctx.index, ctx.pc + 3, ctx.stack.height - type.inputs.toNat⟩ :: ctx.returns.frames) :
    CallRule host type target ctx s [.charge 5] (.next { ctx with index := target, pc := 0, returns } t)

/-- What is asked of the host, and what the step comes to, at the return of a function of this type. -/
inductive ReturnRule (host : Host σ) (type : CodeType) (ctx : Context) (s : σ) :
    List Request → Step σ → Prop
  | outputs (other : ctx.stack.height ≠ ctx.floor + type.outputs.toNat) :
    ReturnRule host type ctx s []
      (.halt (.outputMismatch (ctx.floor + type.outputs.toNat) ctx.stack.height) ctx s)
  | refused {reason : Halt} {t : σ} (same : ctx.stack.height = ctx.floor + type.outputs.toNat)
      (answer : host.charge 3 s = (.error reason, t)) :
    ReturnRule host type ctx s [.charge 3] (.halt reason ctx t)
  | resumes {t : σ} {frame : Frame} {returns : ReturnStack}
      (same : ctx.stack.height = ctx.floor + type.outputs.toNat)
      (answer : host.charge 3 s = (.ok (), t)) (limit : returns.limit = ctx.returns.limit)
      (popped : ctx.returns.frames = frame :: returns.frames) (more : returns.frames ≠ []) :
    ReturnRule host type ctx s [.charge 3]
      (.next { ctx with index := frame.index, pc := frame.offset, returns } t)
  | ends {t : σ} {frame : Frame} {returns : ReturnStack}
      (same : ctx.stack.height = ctx.floor + type.outputs.toNat)
      (answer : host.charge 3 s = (.ok (), t)) (limit : returns.limit = ctx.returns.limit)
      (popped : ctx.returns.frames = [frame]) (last : returns.frames = []) :
    ReturnRule host type ctx s [.charge 3] (.exit .success { ctx with returns } t)

theorem CallRule.enters_iff {index : Nat} (rule : CallRule host type index ctx s asked result) :
    (∃ ctx' u, result = .next ctx' u) ↔ type.inputs.toNat ≤ ctx.stack.height - ctx.floor ∧
      ctx.stack.height + type.maxStackHeight.toNat ≤ 1024 ∧ ctx.returns.depth < 1024 ∧
      (host.charge 5 s).1 = .ok () := by
  cases rule with
  | arguments few => simp [Nat.not_le_of_lt few]
  | headroom enough high => simp [Nat.not_le_of_lt high]
  | frame enough room full => simp [Nat.not_lt_of_le full]
  | refused enough room free answer => simp [answer]
  | enters enough room free answer => simp [enough, room, free, answer]

theorem ReturnRule.passes_iff (rule : ReturnRule host type ctx s asked result) :
    (∀ reason ctx' u, result ≠ .halt reason ctx' u) ↔
      ctx.stack.height = ctx.floor + type.outputs.toNat ∧ (host.charge 3 s).1 = .ok () := by
  cases rule with
  | outputs other => simp [other]
  | refused same answer => simp [answer]
  | resumes same answer => simp [same, answer]
  | ends same answer => simp [same, answer]

theorem requests_own (host : Host σ) (low : ctx.floor ≤ ctx.stack.height) (here : ctx.At c running instr)
    (own : instr.isDelegated = false) (s : σ) :
    (ready c running.type instr instr.info ctx = .ok () →
        requests host c 1 ctx s = [.charge instr.info.gas]) ∧
      ∀ reason, ready c running.type instr instr.info ctx = .error reason →
        requests host c 1 ctx s = [] := by
  obtain ⟨refusal, seam, _⟩ := seam_of_step low host c s
  generalize requests host c 1 ctx s = asked at seam
  cases seam with
  | lost missing => nomatch here.found.symm.trans missing
  | ended found past =>
    have inside := (Instruction.decode_bounds here.decoded).1
    cases here.found.symm.trans found
    omega
  | undecoded found failed =>
    cases here.found.symm.trans found
    nomatch here.decoded.symm.trans failed
  | uncleared there failed =>
    obtain ⟨rfl, rfl⟩ := here.unique there
    exact ⟨fun checked => absurd (ready_iff_cleared.1 checked) failed, fun _ _ => rfl⟩
  | unpaid there cleared =>
    obtain ⟨rfl, rfl⟩ := here.unique there
    exact ⟨fun _ => rfl, fun _ failed => nomatch failed.symm.trans (ready_iff_cleared.2 cleared)⟩
  | own there cleared =>
    obtain ⟨rfl, rfl⟩ := here.unique there
    exact ⟨fun _ => rfl, fun _ failed => nomatch failed.symm.trans (ready_iff_cleared.2 cleared)⟩
  | handed there cleared charged handed =>
    obtain ⟨rfl, rfl⟩ := here.unique there
    nomatch own.symm.trans handed

/-- The checks of a call in exact numbers. What a legal callee declares is below the default limit, so that
taking it off does not stop at zero. -/
theorem callable_eq (stack : ctx.stack.limit = 1024) (returns : ctx.returns.limit = 1024)
    (declared : type.maxStackHeight.toNat ≤ 1023) : callable ctx type =
      if ctx.stack.height - ctx.floor < type.inputs.toNat then
        .error (.stackUnderflow type.inputs.toNat (ctx.stack.height - ctx.floor))
      else if 1024 < ctx.stack.height + type.maxStackHeight.toNat then
        .error (.callStackLimit ctx.stack.height type.maxStackHeight)
      else if 1024 ≤ ctx.returns.depth then .error (.returnStackOverflow 1024)
      else .ok () := by
  have headroom : ctx.stack.limit - type.maxStackHeight.toNat < ctx.stack.height ↔
      1024 < ctx.stack.height + type.maxStackHeight.toNat := by
    rw [stack]
    omega
  unfold callable ReturnStack.isFull
  rw [returns]
  by_cases few : ctx.stack.height - ctx.floor < type.inputs.toNat
  · rw [if_pos few, DataStack.require_eq_error.2 ⟨few, rfl⟩]
    rfl
  · rw [if_neg few, DataStack.require_eq_ok.2 (Nat.le_of_not_lt few)]
    simp only [headroom, decide_eq_true_eq]

theorem step_enters (here : ctx.At c running (.callf target))
    (found : c.sections[target.toNat]? = some callee)
    (checked : ready c running.type (.callf target) (Instruction.callf target).info ctx = .ok ())
    (charged : host.charge 5 s = (.ok (), t)) :
    ∃ returns : ReturnStack, returns.limit = ctx.returns.limit ∧
      returns.frames = ⟨ctx.index, ctx.pc + 3, ctx.stack.height - callee.type.inputs.toNat⟩
        :: ctx.returns.frames ∧
      step host c ctx s = .next { ctx with index := target.toNat, pc := 0, returns } t := by
  obtain ⟨callee', found', free⟩ := (ready_eq_ok checked).2.1 target rfl
  have space := ReturnStack.isFull_eq_false.1 (callable_eq_ok.1 free).2.2
  obtain ⟨returns, pushed⟩ := ReturnStack.push_of_room space
    ⟨ctx.index, ctx.pc + 3, ctx.stack.height - callee.type.inputs.toNat⟩
  obtain ⟨_, limit, shape⟩ := ReturnStack.push_eq_ok.1 pushed
  refine ⟨returns, limit, shape, ?_⟩
  rw [step_eq_perform here checked charged]
  change call c target.toNat (ctx.pc + 3) ctx t = _
  simp only [call, found, pushed]

theorem step_leaves (here : ctx.At c running .retf)
    (checked : ready c running.type .retf Instruction.retf.info ctx = .ok ())
    (charged : host.charge 3 s = (.ok (), t)) {frame : Frame} {returns : ReturnStack}
    (limit : returns.limit = ctx.returns.limit) (popped : ctx.returns.frames = frame :: returns.frames) :
    step host c ctx s = if returns.isEmpty then .exit .success { ctx with returns } t
      else .next { ctx with index := frame.index, pc := frame.offset, returns } t := by
  rw [step_eq_perform here checked charged]
  change comeBack running.type ctx t = _
  simp only [comeBack, ReturnStack.pop?_eq_some.2 ⟨limit, popped⟩]

theorem callRule_of_step (host : Host σ) (limited : ctx.Limited limits)
    (stack : limits.stackLimit = 1024) (returns : limits.returnLimit = 1024)
    (low : ctx.floor ≤ ctx.stack.height) (here : ctx.At c running (.callf target))
    (found : c.sections[target.toNat]? = some callee)
    (declared : callee.type.maxStackHeight.toNat ≤ 1023) (s : σ) :
    CallRule host callee.type target.toNat ctx s (requests host c 1 ctx s) (step host c ctx s) := by
  -- The checks are made in the order of the rules, and what passes all of them is charged for.
  have checks := limited.ready_eq_callable running found
  rw [callable_eq (limited.stack.trans stack) (limited.returns.trans returns) declared] at checks
  obtain ⟨charged, uncharged⟩ := requests_own host low here rfl s
  split at checks
  · rename_i few
    rw [uncharged _ checks, step_eq_halt here checks]
    exact .arguments few
  rename_i enough
  have enough := Nat.le_of_not_lt enough
  split at checks
  · rename_i high
    rw [uncharged _ checks, step_eq_halt here checks]
    exact .headroom enough high
  rename_i room
  have room := Nat.le_of_not_lt room
  split at checks
  · rename_i full
    rw [uncharged _ checks, step_eq_halt here checks]
    exact .frame enough room full
  rename_i unfilled
  have unfilled := Nat.lt_of_not_le unfilled
  rw [charged checks]
  cases answer : host.charge 5 s with
  | mk result t =>
    cases result with
    | error reason =>
      rw [step_eq_unpaid here checks answer]
      exact .refused enough room unfilled answer
    | ok paid =>
      obtain ⟨after, limit, shape, entered⟩ := step_enters here found checks answer
      rw [entered]
      exact .enters enough room unfilled answer limit shape

theorem returnRule_of_step (host : Host σ) (limited : ctx.Limited limits)
    (low : ctx.floor ≤ ctx.stack.height) (live : 0 < ctx.returns.depth)
    (here : ctx.At c running .retf) (s : σ) :
    ReturnRule host running.type ctx s (requests host c 1 ctx s) (step host c ctx s) := by
  have checks := limited.ready_eq_returnable (c := c) running
  obtain ⟨charged, uncharged⟩ := requests_own host low here rfl s
  unfold returnable at checks
  split at checks
  · rename_i same
    rw [charged checks]
    cases answer : host.charge 3 s with
    | mk result t =>
      cases result with
      | error reason =>
        rw [step_eq_unpaid here checks answer]
        exact .refused same answer
      | ok paid =>
        rw [ReturnStack.depth_eq] at live
        obtain ⟨frame, rest, shape⟩ := List.exists_cons_of_length_pos live
        obtain ⟨after, _, limit, rfl⟩ := ReturnStack.pop?_of_frames shape
        rw [step_leaves here checks answer limit shape]
        split
        · rename_i last
          have last : after.frames = [] := List.isEmpty_iff.1 last
          exact .ends same answer limit (last ▸ shape) last
        · rename_i more
          exact .resumes same answer limit shape fun none => more (List.isEmpty_iff.2 none)
  · rename_i other
    rw [uncharged _ checks, step_eq_halt here checks]
    exact .outputs other

/-- Wherever a run of a validated container within the default limits comes to a call, the callee is there and the
step follows the rule of calls, so that it goes through just if the arguments, the headroom, a frame and the
charge are to be had. At a return it follows the rule of returns, and passes just with the declared outputs, if
paid for. -/
theorem transfers_follow_rules {bytes : List UInt8} (valid : Container.load bytes = .ok c) (host : Host σ)
    (stack : limits.stackLimit = Limits.stackDefault) (returns : limits.returnLimit = Limits.returnDefault)
    (s : σ) {n : Nat} (reached : advance host c n (.initial limits) s = .next ctx t) :
    ctx.floor ≤ ctx.stack.height ∧
    (∀ running target, ctx.At c running (.callf target) → ∃ callee, c.sections[target.toNat]? = some callee ∧
      CallRule host callee.type target.toNat ctx t (requests host c 1 ctx t) (step host c ctx t) ∧
      ((∃ ctx' u, step host c ctx t = .next ctx' u) ↔
        callee.type.inputs.toNat ≤ ctx.stack.height - ctx.floor ∧
          ctx.stack.height + callee.type.maxStackHeight.toNat ≤ 1024 ∧ ctx.returns.depth < 1024 ∧
          (host.charge 5 t).1 = .ok ())) ∧
    ∀ running, ctx.At c running .retf →
      ReturnRule host running.type ctx t (requests host c 1 ctx t) (step host c ctx t) ∧
      ((∀ reason ctx' u, step host c ctx t ≠ .halt reason ctx' u) ↔
        ctx.stack.height = ctx.floor + running.type.outputs.toNat ∧ (host.charge 3 t).1 = .ok ()) := by
  have legal := Container.legal_of_load valid
  have grounded : ctx.Grounded :=
    invariant_of_advance Context.Grounded.transition (Context.grounded_initial limits) reached
  have limited : ctx.Limited limits :=
    invariant_of_advance Context.Limited.transition (.initial limits) reached
  have low := grounded.floor_le
  refine ⟨low, ?_, ?_⟩
  · intro running target here
    obtain ⟨callee, found⟩ := callee_of_onTrack legal (onTrack_of_advance legal reached) here target rfl
    have declared := (Container.bounded_of_validate (Container.load_eq_ok.1 valid).2 found).height_le
    have rule := callRule_of_step host limited stack returns low here found declared t
    exact ⟨callee, found, rule, rule.enters_iff⟩
  · intro running here
    have rule := returnRule_of_step host limited low grounded.depth_pos here t
    exact ⟨rule, rule.passes_iff⟩

/-- The relay's entry calls with two words on the stack, of which the callee takes one, and the innermost function
returns with the negated word. -/
theorem relay_follows_rules :
    CallRule .basic ⟨1, 1, 1⟩ 1 ⟨0, 4, ⟨1024, [9, 7], 2, rfl⟩, .initial 1024⟩ ⟨100, 6⟩ [.charge 5]
        (.next (.relayed 7) ⟨100, 11⟩) ∧
      ∀ reason ctx' u, step .basic .relay
        ⟨2, 1, ⟨1024, [~~~9, 7], 2, rfl⟩, ⟨1024, [⟨1, 3, 1⟩, ⟨0, 7, 1⟩, .sentinel], 3, rfl⟩⟩ ⟨100, 19⟩
          ≠ .halt reason ctx' u := by
  have runs :
      advance Host.basic .relay 2 (.initial .default) (.full 100)
          = .next ⟨0, 4, ⟨1024, [9, 7], 2, rfl⟩, .initial 1024⟩ ⟨100, 6⟩ ∧
        requests Host.basic .relay 1 ⟨0, 4, ⟨1024, [9, 7], 2, rfl⟩, .initial 1024⟩ ⟨100, 6⟩ = [.charge 5] ∧
        step Host.basic .relay ⟨0, 4, ⟨1024, [9, 7], 2, rfl⟩, .initial 1024⟩ ⟨100, 6⟩
          = .next (.relayed 7) ⟨100, 11⟩ ∧
        advance Host.basic .relay 5 (.initial .default) (.full 100)
          = .next ⟨2, 1, ⟨1024, [~~~9, 7], 2, rfl⟩, ⟨1024, [⟨1, 3, 1⟩, ⟨0, 7, 1⟩, .sentinel], 3, rfl⟩⟩
              ⟨100, 19⟩ := by decide +kernel
  obtain ⟨calling, asked, stepped, returning⟩ := runs
  obtain ⟨_, calls, _⟩ := transfers_follow_rules Container.load_relay .basic rfl rfl (.full 100) calling
  obtain ⟨_, _, returns⟩ := transfers_follow_rules Container.load_relay .basic rfl rfl (.full 100) returning
  constructor
  · obtain ⟨callee, found, rule, _⟩ :=
      calls ⟨⟨0, 0, 2⟩, #[0x60, 7, 0x60, 9, 0xB0, 0, 1, 0x50, 0x00]⟩ 1
        ⟨rfl, Instruction.decode_iff.2 (by decide)⟩
    obtain rfl := Option.some.inj found
    rw [asked, stepped] at rule
    exact rule
  · exact (returns ⟨⟨1, 1, 1⟩, #[0x19, 0xB1]⟩ ⟨rfl, Instruction.decode_iff.2 (by decide)⟩).2.2
      ⟨rfl, rfl⟩

end Machine
end EvmObject
