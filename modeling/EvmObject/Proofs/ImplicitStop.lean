import EvmObject.Proofs.CallRoom
import EvmObject.Proofs.Legality
import EvmObject.Proofs.Metering
import EvmObject.Proofs.Seam
import EvmObject.Proofs.Soundness
import Mathlib.Data.List.Infix
/-!
Running off the end of a section is a stop. A stop put behind the code of sections moves no instruction, so that
what was legal stays so, and each step of a run comes to the same: before the end the same instruction is read,
and at the end the stop is, which costs nothing. Main statements: `load_withStops`, `step_withStops` and
`run_withStops`.
-/
namespace EvmObject

variable {σ : Type} {host : Host σ} {c c' : Container} {running running' : CodeSection}
  {instr : Instruction} {info : OpcodeInfo} {code code' : Array UInt8} {chosen : Nat → Bool}
  {ctx ctx' : Context} {s : σ} {m m' : GasMeter} {limits : Limits} {next pc : Nat}

namespace Instruction

theorem placed_append (pc : Nat) (instrs more : List Instruction) :
    placed pc (instrs ++ more) = placed pc instrs ++ placed (pc + (instrs.flatMap encode).length) more := by
  induction instrs generalizing pc with
  | nil => rfl
  | cons instr rest ih =>
    rw [List.cons_append, placed, placed, ih, List.flatMap_cons, List.length_append, length_encode,
      List.cons_append, Nat.add_assoc]

theorem decode_of_prefix (decoded : decode code pc = .ok instr) (longer : code.toList <+: code'.toList) :
    decode code' pc = .ok instr :=
  decode_iff.2 ((decode_iff.1 decoded).trans (longer.drop pc))

end Instruction

def CodeSection.padded (running : CodeSection) (chosen : Bool) : CodeSection :=
  if chosen then { running with code := running.code.push 0x00 } else running

/-- The container with stops behind the code of the chosen sections. -/
def Container.withStops (c : Container) (chosen : Nat → Bool) : Container :=
  { c with sections := c.sections.mapIdx fun i running => running.padded (chosen i) }

namespace CodeSection

@[simp] theorem type_padded (running : CodeSection) (chosen : Bool) :
    (running.padded chosen).type = running.type := by
  unfold padded
  split <;> rfl

theorem prefix_padded (running : CodeSection) (chosen : Bool) :
    running.code.toList <+: (running.padded chosen).code.toList := by
  unfold padded
  split
  · rw [Array.toList_push]
    exact List.prefix_append _ _
  · exact List.prefix_rfl

theorem defect?_push {count index : Nat} (fine : running.defect? count index = none) :
    { running with code := running.code.push 0x00 : CodeSection }.defect? count index = none := by
  obtain ⟨bounded, whole, operands, landings⟩ := defect?_eq_none.1 fine
  obtain ⟨instrs, written⟩ := Sweep.written_of_fault whole
  have longer : (running.code.push 0x00).toList = (instrs ++ [Instruction.stop]).flatMap Instruction.encode := by
    rw [Array.toList_push, written, List.flatMap_append]
    rfl
  have sweep := Sweep.ofCode_written written
  have sweep' := Sweep.ofCode_written longer
  have lines : ∀ line ∈ Instruction.placed 0 (instrs ++ [.stop]),
      line ∈ Instruction.placed 0 instrs ∨ line.2 = .stop := by
    intro line member
    rw [Instruction.placed_append, List.mem_append] at member
    exact member.imp_right fun last => congrArg Prod.snd (List.mem_singleton.1 last)
  rw [sweep] at operands
  refine defect?_eq_none.2 ⟨bounded, congrArg Sweep.fault sweep', ?_, ?_⟩
  · intro line member
    rw [sweep'] at member
    obtain before | stop := lines line member
    · exact operands line before
    · rw [stop]
      rfl
  · intro line member offset among
    rw [sweep'] at member
    obtain before | stop := lines line member
    · obtain ⟨start, there, same⟩ :=
        (Sweep.landing_iff written).1 (landings line (by rwa [sweep]) offset among)
      refine (Sweep.landing_iff longer).2 ⟨start, ?_, same⟩
      rw [Instruction.placed_append]
      exact List.mem_append_left _ there
    · rw [stop] at among
      nomatch among

theorem defect?_padded {count index : Nat} (chosen : Bool) (fine : running.defect? count index = none) :
    (running.padded chosen).defect? count index = none := by
  unfold padded
  split
  · exact defect?_push fine
  · exact fine

theorem size_padded_le (nonempty : 1 ≤ running.code.size) {chosen : Bool}
    (short : running.code.size ≤ 65535) (shorter : chosen = true → running.code.size < 65535) :
    1 ≤ (running.padded chosen).code.size ∧ (running.padded chosen).code.size ≤ 65535 := by
  unfold padded
  split
  · rename_i padded
    have := shorter padded
    rw [Array.size_push]
    omega
  · exact ⟨nonempty, short⟩

theorem Legal.boundary_le {count : Nat} (legal : running.Legal count) (boundary : running.IsBoundary pc) :
    pc ≤ running.code.size := by
  obtain start | stop := boundary
  · obtain ⟨line, member, rfl⟩ := List.mem_map.1 start
    exact Nat.le_of_lt (Instruction.decode_bounds (legal.tiles.decode_of_mem member)).1
  · exact Nat.le_of_eq stop

end CodeSection

namespace Container

theorem section_withStops (c : Container) (chosen : Nat → Bool) (i : Nat) :
    (c.withStops chosen).sections[i]? = c.sections[i]?.map (·.padded (chosen i)) :=
  Array.getElem?_mapIdx

theorem size_withStops (c : Container) (chosen : Nat → Bool) :
    (c.withStops chosen).sections.size = c.sections.size :=
  Array.size_mapIdx

theorem wellFormed_withStops (fine : c.WellFormed)
    (short : ∀ i running, c.sections[i]? = some running → chosen i = true → running.code.size < 65535) :
    (c.withStops chosen).WellFormed where
  version := fine.version
  sections_pos := (size_withStops c chosen).symm ▸ fine.sections_pos
  sections_le := (size_withStops c chosen).symm ▸ fine.sections_le
  codes := by
    intro padded member
    obtain ⟨i, found⟩ := Array.getElem?_of_mem member
    rw [section_withStops] at found
    obtain ⟨running, there, rfl⟩ := Option.map_eq_some_iff.1 found
    obtain ⟨nonempty, fits⟩ := fine.codes running (Array.mem_of_getElem? there)
    exact running.size_padded_le nonempty fits (short i running there)
  data := fine.data

theorem validate_withStops (chosen : Nat → Bool) (valid : c.validate = .ok ()) :
    (c.withStops chosen).validate = .ok () := by
  refine validate_eq_ok.2 ?_
  intro i padded found
  rw [section_withStops] at found
  obtain ⟨running, there, rfl⟩ := Option.map_eq_some_iff.1 found
  rw [size_withStops]
  exact CodeSection.defect?_padded (chosen i) (validate_eq_ok.1 valid i running there)

theorem load_withStops {bytes : List UInt8} (valid : load bytes = .ok c)
    (short : ∀ i running, c.sections[i]? = some running → chosen i = true → running.code.size < 65535) :
    load (c.withStops chosen).encode = .ok (c.withStops chosen) := by
  obtain ⟨decoded, fine⟩ := load_eq_ok.1 valid
  have wellFormed := wellFormed_withStops (decode_eq_ok.1 decoded).1 short
  exact load_eq_ok.2 ⟨decode_eq_ok.2 ⟨wellFormed, rfl⟩, validate_withStops chosen fine⟩

end Container

namespace Machine

/-! What a step reads of the code, but for the instruction that it carries out. -/

theorem land_of_le {jump : Option Int16} {target : Nat} (landed : land code next jump = .ok target)
    (longer : code.size ≤ code'.size) : land code' next jump = .ok target := by
  cases jump with
  | none => exact landed
  | some offset =>
    obtain ⟨found, inside⟩ := land_eq_ok.1 landed
    exact land_eq_ok.2 ⟨found, Nat.lt_of_lt_of_le inside longer⟩

theorem goTo_congr {jump : Option Int16} (lands : land code' next jump = land code next jump) :
    goTo code' next jump ctx s = goTo code next jump ctx s := by
  simp only [goTo, lands]

theorem select_congr {choose : Word → Option Int16}
    (lands : ∀ w, land code' next (choose w) = land code next (choose w)) :
    select code' next choose ctx s = select code next choose ctx s := by
  simp only [select, goTo, lands]

section Types

/-! Of the sections that are called only the types are read. -/

variable (types : ∀ i : Nat, c'.sections[i]?.map CodeSection.type = c.sections[i]?.map CodeSection.type)
include types

theorem callee_congr (target : Nat) :
    c'.sections[target]? = none ∧ c.sections[target]? = none ∨
      ∃ callee' callee, c'.sections[target]? = some callee' ∧ c.sections[target]? = some callee ∧
        callee'.type = callee.type := by
  have same := types target
  cases found : c.sections[target]? with
  | none =>
    rw [found, Option.map_none, Option.map_eq_none_iff] at same
    exact .inl ⟨same, rfl⟩
  | some callee =>
    rw [found, Option.map_some, Option.map_eq_some_iff] at same
    obtain ⟨callee', found', type⟩ := same
    exact .inr ⟨callee', callee, found', rfl, type⟩

theorem ready_congr (type : CodeType) :
    ready c' type instr info ctx = ready c type instr info ctx := by
  cases instr with
  | callf target =>
    unfold ready
    dsimp only
    obtain ⟨missing', missing⟩ | ⟨callee', callee, found', found, same⟩ := callee_congr types target.toNat
    · rw [missing', missing]
    · rw [found', found]
      dsimp only
      rw [same]
  | _ => rfl

theorem call_congr (target : Nat) : call c' target next ctx s = call c target next ctx s := by
  obtain ⟨missing', missing⟩ | ⟨callee', callee, found', found, same⟩ := callee_congr types target
  · simp only [call, missing', missing]
  · simp only [call, found', found, same]

theorem perform_congr (type : running'.type = running.type)
    (lands : ∀ jump, (∀ offset, jump = some offset → offset ∈ instr.offsets) →
      land running'.code next jump = land running.code next jump) :
    perform host c' running' instr info next ctx s = perform host c running instr info next ctx s := by
  cases instr with
  | rjump offset => exact goTo_congr (lands _ (by rintro _ ⟨⟩; exact List.mem_singleton_self offset))
  | rjumpi offset => exact select_congr fun w => lands _ fun _ => Instruction.mem_offsets_rjumpi
  | rjumpv table => exact select_congr fun w => lands _ fun _ => Instruction.mem_offsets_rjumpv
  | callf target => exact call_congr types target.toNat
  | retf => simp only [perform, type]
  | _ => rfl

theorem execute_congr (type : running'.type = running.type)
    (lands : ∀ jump, (∀ offset, jump = some offset → offset ∈ instr.offsets) →
      land running'.code (ctx.pc + instr.length) jump = land running.code (ctx.pc + instr.length) jump) :
    execute host c' running' instr ctx s = execute host c running instr ctx s := by
  simp only [execute, type, ready_congr types, perform_congr types type lands]

end Types

theorem step_before_stops (legal : c.Legal) (onTrack : ctx.OnTrack c) (here : ctx.At c running instr) :
    step host (c.withStops chosen) ctx s = step host c ctx s := by
  have types : ∀ i : Nat, (c.withStops chosen).sections[i]?.map CodeSection.type
      = c.sections[i]?.map CodeSection.type := by
    intro i
    rw [Container.section_withStops]
    cases c.sections[i]? <;> simp
  have found : (c.withStops chosen).sections[ctx.index]? = some (running.padded (chosen ctx.index)) := by
    rw [Container.section_withStops, here.found]
    rfl
  have longer := running.prefix_padded (chosen ctx.index)
  have there : ctx.At (c.withStops chosen) (running.padded (chosen ctx.index)) instr :=
    ⟨found, Instruction.decode_of_prefix here.decoded longer⟩
  rw [step_eq_execute there, step_eq_execute here]
  refine execute_congr types (running.type_padded _) ?_
  intro jump known
  obtain ⟨target, landed, _⟩ :=
    (legal.section_at here.found).land (onTrack.boundary here.found) here.decoded known
  rw [landed]
  exact land_of_le landed (by simpa using longer.length_le)

/-- At the end of a section the stop does what happens there anyway, if it is to be had for nothing. -/
theorem step_at_stop (found : c.sections[ctx.index]? = some running) (stop : ctx.pc = running.code.size)
    (room : ctx.stack.height ≤ ctx.stack.limit) (free : host.charge 0 s = (.ok (), s)) :
    step host (c.withStops chosen) ctx s = step host c ctx s := by
  rw [step_eq_exit found (Nat.le_of_eq stop.symm)]
  have found' := c.section_withStops chosen ctx.index
  rw [found, Option.map_some, CodeSection.padded] at found'
  split at found'
  · have decoded : Instruction.decode (running.code.push 0x00) ctx.pc = .ok .stop := by
      rw [Instruction.decode_iff, stop, Array.toList_push, ← Array.length_toList, List.drop_left]
      exact List.prefix_rfl
    have checked : ready (c.withStops chosen) running.type .stop Instruction.stop.info ctx = .ok () := by
      rw [ready_eq_accommodates rfl]
      exact DataStack.accommodates_eq_ok.2 ⟨Nat.zero_le _, room⟩
    rw [step_eq_perform ⟨found', decoded⟩ checked free]
    rfl
  · exact step_eq_exit found' (Nat.le_of_eq stop.symm) s

theorem step_withStops (legal : c.Legal) (onTrack : ctx.OnTrack c)
    (room : ctx.stack.height ≤ ctx.stack.limit) (free : host.charge 0 s = (.ok (), s)) :
    step host (c.withStops chosen) ctx s = step host c ctx s := by
  obtain ⟨running, found, boundary⟩ := onTrack.here
  have fine := legal.section_at found
  obtain inside | stop := Nat.lt_or_eq_of_le (fine.boundary_le boundary)
  · obtain ⟨instr, decoded⟩ := fine.decodes boundary inside
    exact step_before_stops legal onTrack ⟨found, decoded⟩
  · exact step_at_stop found stop room free

theorem charge_zero (within : m.used ≤ m.limit) : Host.basic.charge 0 m = (.ok (), m) := by
  have fits : m.used.toNat + (0 : UInt64).toNat ≤ m.limit.toNat := UInt64.le_iff_toNat_le.1 within
  have same := GasMeter.charge_of_le fits
  rwa [UInt64.add_zero] at same

theorem within_of_advance {n : Nat} (within : m.used ≤ m.limit)
    (reached : advance .basic c n ctx m = .next ctx' m') : m'.used ≤ m'.limit := by
  have all : ∀ after t, advance .basic c n ctx m = .next after t → t.used ≤ t.limit := by
    refine advance_induction
      (P := fun r : Step GasMeter => ∀ after t, r = .next after t → t.used ≤ t.limit) ?_ ?_ n
    · rintro _ _ ⟨⟩
      exact within
    · intro before u holds after t stepped
      have steps := course .basic c before u
      generalize step .basic c before u = result at stepped steps
      cases steps with
      | @performed running instr paid here checked charged =>
        have same : (perform .basic c running instr instr.info (before.pc + instr.length) before paid).state
            = paid := perform_basic (ready_iff_cleared.1 checked)
        rw [stepped] at same
        obtain rfl : t = paid := same
        exact (GasMeter.used_charge charged).2.2
      | _ => cases stepped
  exact all ctx' m' reached

theorem advance_withStops (legal : c.Legal) (chosen : Nat → Bool) (limits : Limits)
    (within : m.used ≤ m.limit) (n : Nat) :
    advance .basic (c.withStops chosen) n (.initial limits) m = advance .basic c n (.initial limits) m := by
  induction n with
  | zero => rfl
  | succ n ih =>
    rw [advance, ih, advance]
    cases reached : advance .basic c n (.initial limits) m with
    | next ctx t =>
      have onTrack := advance_onTrack legal Host.tactful_basic limits m n
      rw [reached] at onTrack
      have limited : ctx.Limited limits :=
        invariant_of_advance Context.Limited.transition (.initial limits) reached
      have room : ctx.stack.height ≤ ctx.stack.limit := limited.stack ▸ limited.height_le
      exact step_withStops legal onTrack room (charge_zero (within_of_advance within reached))
    | _ => rfl

/-- A valid container with stops behind sections of which none is of full size is valid, and its runs against a
meter have the same outcome and leave the meter the same. -/
theorem run_withStops {bytes : List UInt8} (valid : Container.load bytes = .ok c) (chosen : Nat → Bool)
    (short : ∀ i running, c.sections[i]? = some running → chosen i = true → running.code.size < 65535) :
    Container.load (c.withStops chosen).encode = .ok (c.withStops chosen) ∧
      ∀ limits m, m.Reachable → run .basic (c.withStops chosen) limits m = run .basic c limits m := by
  refine ⟨Container.load_withStops valid short, ?_⟩
  intro limits m reachable
  have ended := runFor_run .basic c limits m
  rw [runFor_eq, ← advance_withStops (Container.legal_of_load valid) chosen limits reachable.within,
    ← runFor_eq] at ended
  exact run_of_runFor ended

end Machine

/-- The entry ends right behind its call. -/
def Container.brink : Container :=
  .assemble #[⟨⟨0, 0, 1⟩, #[0x60, 7, 0xB0, 0, 1]⟩, ⟨⟨0, 0, 0⟩, #[0xB1]⟩] []

theorem Container.load_brink : load brink.encode = .ok brink :=
  load_of_toOption (by decide +kernel)

/-- With a stop behind the call, and one behind the return that is never come to, the brink ends as before, the
last of the gas being spent. -/
theorem run_withStops_brink :
    Container.load (Container.brink.withStops fun _ => true).encode
        = .ok (Container.brink.withStops fun _ => true) ∧
      Machine.run .basic (Container.brink.withStops fun _ => true) .default ⟨14, 3⟩
        = (.success 14 [7], ⟨14, 14⟩) := by
  have sizes : ∀ running ∈ Container.brink.sections, running.code.size < 65535 := by decide
  have reachable : GasMeter.Reachable ⟨14, 3⟩ := .charge (.full 14) 3
  have ended : Machine.runFor .basic .brink 4 (.initial .default) ⟨14, 3⟩
      = some (.success 14 [7], ⟨14, 14⟩) := by decide +kernel
  obtain ⟨valid, same⟩ := Machine.run_withStops Container.load_brink (fun _ => true)
    fun _ running found _ => sizes running (Array.mem_of_getElem? found)
  exact ⟨valid, (same .default _ reachable).trans (Machine.run_of_runFor ended)⟩

end EvmObject
