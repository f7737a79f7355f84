import EvmObject.Proofs.Decoding
import EvmObject.Proofs.Faults
import EvmObject.StraightLine
import EvmObject.Word.Lemmas
/-!
Straight-line code runs as its tally tells. Main statements: the machine takes an instruction into account
as its tally does (`Tally.step_next`) and halts at one that the tally refuses (`Tally.step_fault`), and a
section of such instructions ends with the tally of all of them or with the fault of the first that has one
(`straight_line`).
-/
namespace EvmObject

variable {s t : DataStack} {floor : Nat}

theorem BinaryOp.eval_eq (op : BinaryOp) (a b : Word) :
    op.eval a b = .ofInt 256 (op.meaning a.toNat b.toNat) := by
  have ha := a.isLt
  have hb := b.isLt
  apply BitVec.eq_of_toNat_eq
  rw [BitVec.toNat_ofInt]
  cases op with
  | add =>
    simp only [eval, meaning, BitVec.toNat_add]
    omega
  | sub =>
    simp only [eval, meaning, BitVec.toNat_sub]
    omega
  | lt =>
    simp only [eval, meaning, BitVec.ult, Word.ofBool, decide_eq_true_eq]
    split <;> rfl
  | gt =>
    simp only [eval, meaning, BitVec.ult, Word.ofBool, decide_eq_true_eq]
    split <;> rfl
  | eq =>
    simp only [eval, meaning, Word.ofBool, beq_iff_eq, ← BitVec.toNat_inj]
    split <;> rfl
  | and =>
    have := (a &&& b).isLt
    simp only [eval, meaning, ← BitVec.toNat_and]
    omega
  | or =>
    have := (a ||| b).isLt
    simp only [eval, meaning, ← BitVec.toNat_or]
    omega
  | xor =>
    have := (a ^^^ b).isLt
    simp only [eval, meaning, ← BitVec.toNat_xor]
    omega

theorem UnaryOp.eval_eq (op : UnaryOp) (a : Word) : op.eval a = .ofInt 256 (op.meaning a.toNat) := by
  have ha := a.isLt
  apply BitVec.eq_of_toNat_eq
  rw [BitVec.toNat_ofInt]
  cases op with
  | isZero =>
    simp only [eval, meaning, Word.ofBool, beq_iff_eq, ← BitVec.toNat_inj]
    split <;> simp_all
  | not =>
    simp only [eval, meaning, BitVec.toNat_not]
    omega

namespace StackOp

variable {op : StackOp} {words after : List Word}

theorem arity_eq (op : StackOp) : op.opcode.info.inputs = op.arity := by
  cases op with
  | binary op => exact op.inputs_eq
  | unary op => exact op.inputs_eq
  | _ => rfl

theorem cost_eq (op : StackOp) : op.opcode.info.gas.toNat = op.cost := by
  cases op with
  | binary op => cases op <;> rfl
  | unary op => cases op <;> rfl
  | push data =>
    simp only [opcode, Opcode.info, cost, ← List.length_eq_zero_iff, Fin.ext_iff]
    split <;> simp_all
  | _ => rfl

theorem effect?_eq_none : op.effect? words = none ↔ words.length < op.arity := by
  cases op with
  | binary op => rcases words with _ | ⟨a, _ | ⟨b, rest⟩⟩ <;> simp [effect?, arity]
  | unary op => cases words <;> simp [effect?, arity]
  | pop => cases words <;> simp [effect?, arity]
  | nop => simp [effect?, arity]
  | push data => simp [effect?, arity]
  | dup depth => rw [effect?, Option.map_eq_none_iff, List.getElem?_eq_none_iff, arity, Nat.lt_succ_iff]
  | swap depth =>
    cases words with
    | nil => simp [effect?, arity]
    | cons top rest =>
      rw [effect?, Option.map_eq_none_iff, List.getElem?_eq_none_iff, arity, List.length_cons]
      omega

theorem arity_le (h : op.effect? words = some after) : op.arity ≤ words.length := by
  by_contra few
  rw [effect?_eq_none.2 (Nat.lt_of_not_le few)] at h
  nomatch h

theorem length_effect (h : op.effect? words = some after) :
    after.length + op.arity = words.length + op.opcode.info.outputs := by
  cases op with
  | binary op =>
    rcases words with _ | ⟨a, _ | ⟨b, rest⟩⟩ <;> cases h
    simp [arity, opcode, Opcode.info]
  | unary op =>
    cases words <;> cases h
    simp [arity, opcode, Opcode.info]
  | pop =>
    cases words <;> cases h
    rfl
  | nop =>
    cases h
    rfl
  | push data =>
    cases h
    rfl
  | dup depth =>
    obtain ⟨w, _, rfl⟩ := Option.map_eq_some_iff.1 h
    simp only [arity, opcode, Opcode.info, OpcodeInfo.plain, List.length_cons]
    omega
  | swap depth =>
    obtain _ | ⟨top, rest⟩ := words
    · cases h
    · obtain ⟨low, _, rfl⟩ := Option.map_eq_some_iff.1 h
      simp only [arity, opcode, Opcode.info, OpcodeInfo.plain, List.length_cons, List.length_set]

theorem length_le_encode (ops : List StackOp) : ops.length ≤ (ops.flatMap encode).length := by
  induction ops with
  | nil => exact Nat.le_refl 0
  | cons op ops ih =>
    have pos : 1 ≤ op.encode.length := Nat.succ_le_succ (Nat.zero_le _)
    rw [List.flatMap_cons, List.length_append, List.length_cons]
    omega

theorem effect?_append (h : op.effect? words = some after) (below : List Word) :
    op.effect? (words ++ below) = some (after ++ below) := by
  cases op with
  | binary op =>
    rcases words with _ | ⟨a, _ | ⟨b, rest⟩⟩ <;> cases h
    rfl
  | unary op =>
    cases words <;> cases h
    rfl
  | pop =>
    cases words <;> cases h
    rfl
  | nop =>
    cases h
    rfl
  | push data =>
    cases h
    rfl
  | dup depth =>
    obtain ⟨w, found, rfl⟩ := Option.map_eq_some_iff.1 h
    have inside := (List.getElem?_eq_some_iff.1 found).1
    rw [effect?, List.getElem?_append_left inside, found]
    rfl
  | swap depth =>
    obtain _ | ⟨top, rest⟩ := words
    · cases h
    · obtain ⟨low, found, rfl⟩ := Option.map_eq_some_iff.1 h
      have inside := (List.getElem?_eq_some_iff.1 found).1
      rw [List.cons_append, effect?, List.getElem?_append_left inside, found, List.set_append_left _ _ inside]
      rfl

theorem effect?_of_apply (h : op.apply floor s = .ok t) : op.effect? s.words = some t.words := by
  cases op with
  | binary op =>
    obtain ⟨⟨a, u⟩, first, h⟩ := DataStack.keep_bind_eq_ok.1 h
    obtain ⟨⟨b, v⟩, second, third⟩ := DataStack.keep_bind_eq_ok.1 h
    rw [DataStack.words_pop first, DataStack.words_pop second,
      DataStack.words_push (DataStack.keep_eq_ok.1 third), effect?, op.eval_eq]
  | unary op =>
    obtain ⟨⟨a, u⟩, first, second⟩ := DataStack.keep_bind_eq_ok.1 h
    rw [DataStack.words_pop first, DataStack.words_push (DataStack.keep_eq_ok.1 second), effect?, op.eval_eq]
  | pop =>
    obtain ⟨⟨a, u⟩, first, rest⟩ := DataStack.keep_bind_eq_ok.1 h
    cases rest
    rw [DataStack.words_pop first, effect?]
  | nop =>
    cases h
    rfl
  | push data =>
    have value : Word.ofBytes data.bytes = .ofNat 256 (BigEndian.value data.bytes) :=
      BitVec.eq_of_toNat_eq (Word.toNat_ofBytes data.bytes)
    rw [effect?, DataStack.words_push (DataStack.keep_eq_ok.1 h), value]
  | dup depth =>
    obtain ⟨w, found, words⟩ := DataStack.words_dup (DataStack.keep_eq_ok.1 h)
    rw [Nat.add_sub_cancel] at found
    rw [effect?, found, words, Option.map_some]
  | swap depth =>
    obtain ⟨enough, _, words⟩ := DataStack.swap_eq_ok.1 (DataStack.keep_eq_ok.1 h)
    rw [DataStack.visible, s.height_eq] at enough
    rw [words]
    cases shape : s.words with
    | nil =>
      rw [shape, List.length_nil] at enough
      omega
    | cons top rest =>
      rw [shape, List.length_cons] at enough
      have low := List.getElem?_eq_getElem (l := rest) (i := depth) (by omega)
      simp [effect?, DataStack.exchange, low]

end StackOp

namespace Tally

variable {t u : Tally} {op : StackOp} {ops : List StackOp} {offset : Nat} {reason : Halt}

def context (t : Tally) : Context :=
  ⟨0, t.offset, ⟨Limits.stackDefault, t.words, t.words.length, rfl⟩, .initial Limits.returnDefault⟩

def meter (t : Tally) : GasMeter := ⟨Limits.gasDefault, UInt64.ofNat t.gas⟩

def outcome : Except (Nat × Halt) Tally → Outcome
  | .ok t => .success (UInt64.ofNat t.gas) t.words
  | .error (offset, reason) => .exceptionalHalt reason 0 offset 1

theorem after_eq_ok : t.after op = .ok u ↔ ∃ words, op.effect? t.words = some words ∧
    words.length ≤ 1024 ∧ u = ⟨words, t.gas + op.cost, t.offset + op.encode.length⟩ := by
  unfold after
  cases op.effect? t.words with
  | none => simp
  | some words =>
    dsimp only
    split
    · simp_all [eq_comm]
    · simp; omega

theorem after_eq_error : t.after op = .error (offset, reason) ↔ offset = t.offset ∧
    (op.effect? t.words = none ∧ reason = .stackUnderflow op.arity t.words.length ∨
      ∃ words, op.effect? t.words = some words ∧ 1024 < words.length ∧ reason = .stackOverflow 1024) := by
  unfold after
  cases op.effect? t.words with
  | none => simp [eq_comm]
  | some words =>
    dsimp only
    split
    · simp; omega
    · simp_all [eq_comm]

variable {c : Container} {running : CodeSection}

theorem ready_eq (t : Tally) (c : Container) (type : CodeType) (op : StackOp) :
    Machine.ready c type (.stack op) (Instruction.stack op).info t.context
      = t.context.stack.accommodates 0 op.arity op.opcode.info.outputs := by
  rw [Machine.ready_eq_accommodates rfl]
  exact congrArg (t.context.stack.accommodates 0 · _) op.arity_eq

theorem charge_meter (t : Tally) (op : StackOp) (fits : t.gas + op.cost < 2 ^ 64) :
    Host.basic.charge op.opcode.info.gas t.meter
      = (.ok (), ⟨Limits.gasDefault, UInt64.ofNat (t.gas + op.cost)⟩) := by
  have cost : op.opcode.info.gas = UInt64.ofNat op.cost := by rw [← op.cost_eq, UInt64.ofNat_toNat]
  have limit : Limits.gasDefault.toNat = 2 ^ 64 - 1 := by decide
  have used : (UInt64.ofNat t.gas).toNat = t.gas := by
    rw [UInt64.toNat_ofNat', Nat.mod_eq_of_lt (by omega)]
  have within : t.meter.used.toNat + op.opcode.info.gas.toNat ≤ t.meter.limit.toNat := by
    rw [meter, used, op.cost_eq, limit]
    omega
  rw [UInt64.ofNat_add, ← cost]
  exact GasMeter.charge_of_le within

theorem step_next (here : t.context.At c running (.stack op)) (fits : t.gas + op.cost < 2 ^ 64)
    (h : t.after op = .ok u) : Machine.step .basic c t.context t.meter = .next u.context u.meter := by
  obtain ⟨words, effect, short, rfl⟩ := after_eq_ok.1 h
  have enough := StackOp.arity_le effect
  have counts := StackOp.length_effect effect
  have room : t.context.stack.accommodates 0 op.opcode.info.inputs op.opcode.info.outputs = .ok () := by
    rw [op.arity_eq]
    refine DataStack.accommodates_eq_ok.2 ⟨enough, ?_⟩
    change t.words.length - op.arity + _ ≤ 1024
    omega
  have checked : Machine.ready c running.type (.stack op) (Instruction.stack op).info t.context = .ok () := by
    rw [ready_eq, ← op.arity_eq, room]
  rw [Machine.step_eq_perform here checked (t.charge_meter op fits)]
  cases applied : op.apply 0 t.context.stack with
  | error fault => exact absurd applied (StackOp.apply_ne_error room)
  | ok stack =>
    rw [Machine.perform_stack applied]
    have same : stack = ⟨Limits.stackDefault, words, words.length, rfl⟩ := by
      refine DataStack.ext (StackOp.height_apply applied).1 ?_
      exact Option.some.inj ((StackOp.effect?_of_apply applied).symm.trans effect)
    rw [same, ← Instruction.length_encode]
    rfl

theorem step_fault (here : t.context.At c running (.stack op)) (h : t.after op = .error (offset, reason)) :
    Machine.step .basic c t.context t.meter = .halt reason t.context t.meter := by
  obtain ⟨_, cause⟩ := after_eq_error.1 h
  refine Machine.step_eq_halt here ?_ t.meter
  rw [ready_eq, DataStack.accommodates_eq_error]
  change t.words.length < _ ∧ _ = Halt.stackUnderflow _ t.words.length ∨
    _ ≤ t.words.length ∧ 1024 < t.words.length - _ + _ ∧ _
  obtain ⟨few, rfl⟩ | ⟨words, effect, full, rfl⟩ := cause
  · exact .inl ⟨StackOp.effect?_eq_none.1 few, rfl⟩
  · have enough := StackOp.arity_le effect
    have counts := StackOp.length_effect effect
    exact .inr ⟨enough, by omega, rfl⟩

theorem cost_le (op : StackOp) : op.cost ≤ 3 := by
  cases op with
  | push data =>
    rw [StackOp.cost]
    split <;> decide
  | _ => exact Nat.le_of_ble_eq_true rfl

theorem gas_le (h : ops.foldlM after t = .ok u) : u.gas ≤ t.gas + 3 * ops.length := by
  induction ops generalizing t with
  | nil =>
    cases h
    exact Nat.le_refl _
  | cons op ops ih =>
    rw [List.foldlM_cons] at h
    obtain ⟨v, first, rest⟩ := bind_eq_ok.1 h
    obtain ⟨words, _, _, rfl⟩ := after_eq_ok.1 first
    have paid := ih rest
    have cost := cost_le op
    simp only [List.length_cons] at paid ⊢
    omega

/-- From the bytes on that are still to come, the machine comes to what folding their instructions tells. -/
theorem runFor_fold (found : c.sections[0]? = some running) (enough : t.gas + 3 * ops.length < 2 ^ 64)
    (written : running.code.toList.drop t.offset = ops.flatMap StackOp.encode) :
    ∃ m, Machine.runFor .basic c (ops.length + 1) t.context t.meter
      = some (outcome (ops.foldlM after t), m) := by
  induction ops generalizing t with
  | nil =>
    have past : running.code.size ≤ t.offset := by simpa using written
    have ends : Machine.step .basic c t.context t.meter = .exit .success t.context t.meter :=
      Machine.step_eq_exit found past t.meter
    refine ⟨t.meter, ?_⟩
    rw [Machine.runFor, ends]
    rfl
  | cons op ops ih =>
    have here : t.context.At c running (.stack op) := by
      refine ⟨found, Instruction.decode_iff.2 ?_⟩
      change op.encode <+: running.code.toList.drop t.offset
      rw [written]
      exact List.prefix_append _ _
    have cost := cost_le op
    rw [List.length_cons] at enough
    rw [List.foldlM_cons, List.length_cons, Machine.runFor]
    cases first : t.after op with
    | error fault =>
      obtain ⟨offset, reason⟩ := fault
      rw [step_fault here first]
      obtain ⟨rfl, _⟩ := after_eq_error.1 first
      exact ⟨t.meter, rfl⟩
    | ok u =>
      rw [step_next here (by omega) first]
      obtain ⟨words, _, _, rfl⟩ := after_eq_ok.1 first
      refine ih (by dsimp only; omega) ?_
      rw [← List.drop_drop, written, List.flatMap_cons, List.drop_left]

end Tally

namespace Container

variable {ops : List StackOp} {maxStackHeight : UInt16} {data : List UInt8}

theorem written_straight (ops : List StackOp) :
    (ops.flatMap StackOp.encode).toArray.toList = (ops.map Instruction.stack).flatMap Instruction.encode := by
  rw [List.flatMap_map]
  rfl

theorem validate_straight (bounded : maxStackHeight.toNat ≤ 1023) :
    (straight ops maxStackHeight data).validate = .ok () := by
  have sweep := Sweep.ofCode_written (written_straight ops)
  rw [validate_eq_ok]
  intro i s found
  obtain ⟨inside, rfl⟩ := Array.getElem?_eq_some_iff.1 found
  obtain rfl : i = 0 := Nat.lt_one_iff.1 inside
  have moves : ∀ line ∈ (Sweep.ofCode (ops.flatMap StackOp.encode).toArray).lines,
      ∃ op, line.2 = .stack op := by
    intro line member
    rw [sweep] at member
    obtain ⟨op, _, same⟩ := List.mem_map.1 (Instruction.mem_of_mem_placed member)
    exact ⟨op, same.symm⟩
  have type : CodeType.Bounded 0 ⟨0, 0, maxStackHeight⟩ := ⟨by simp, by simp, bounded, by simp⟩
  refine CodeSection.defect?_eq_none.2 ⟨type, ?_, ?_, ?_⟩
  · exact congrArg Sweep.fault sweep
  · intro line member
    obtain ⟨op, same⟩ := moves line member
    rw [same]
    rfl
  · intro line member offset among
    obtain ⟨op, same⟩ := moves line member
    rw [same] at among
    nomatch among

theorem load_straight (nonempty : ops ≠ []) (short : (ops.flatMap StackOp.encode).length ≤ 65535)
    (bounded : maxStackHeight.toNat ≤ 1023) (fits : data.length ≤ 65535) :
    load (straight ops maxStackHeight data).encode = .ok (straight ops maxStackHeight data) := by
  have few : 1 ≤ 1024 := by decide
  refine load_eq_ok.2 ⟨decode_eq_ok.2 ⟨⟨rfl, Nat.le_refl 1, few, ?_, fits⟩, rfl⟩, validate_straight bounded⟩
  intro s member
  obtain rfl : s = ⟨⟨0, 0, maxStackHeight⟩, (ops.flatMap StackOp.encode).toArray⟩ := by
    simpa [straight, assemble] using member
  refine ⟨?_, by simpa using short⟩
  obtain ⟨op, rest, rfl⟩ := List.exists_cons_of_ne_nil nonempty
  simp [StackOp.encode, Instruction.encode]

end Container

open Machine in
/-- Straight-line code as the only section is valid. With default limits and gas its run ends with the words
and the gas that folding the instructions gives, or with the first fault of the fold at the bytes before it. -/
theorem straight_line (ops : List StackOp) (nonempty : ops ≠ [])
    (short : (ops.flatMap StackOp.encode).length ≤ 65535) (maxStackHeight : UInt16)
    (bounded : maxStackHeight.toNat ≤ 1023) (data : List UInt8) (fits : data.length ≤ 65535) :
    let c := Container.straight ops maxStackHeight data
    let ended := (run .basic c .default (.full Limits.gasDefault)).1
    Container.load c.encode = .ok c ∧
    (∀ t, ops.foldlM Tally.after .start = .ok t →
      ∃ gas, gas.toNat = t.gas ∧ ended = .success gas t.words) ∧
    ∀ offset reason, ops.foldlM Tally.after .start = .error (offset, reason) →
      ended = .exceptionalHalt reason 0 offset 1 := by
  intro c ended
  have count := StackOp.length_le_encode ops
  have free : Tally.start.gas = 0 := rfl
  obtain ⟨m, folded⟩ := Tally.runFor_fold (c := c) (t := .start) rfl (by omega) rfl
  have whole : runFor .basic c (ops.length + 1) (.initial .default) (.full Limits.gasDefault) = _ := folded
  have run : ended = Tally.outcome (ops.foldlM Tally.after .start) := congrArg Prod.fst (run_of_runFor whole)
  refine ⟨Container.load_straight nonempty short bounded fits, ?_, ?_⟩
  · intro t tally
    have paid := Tally.gas_le tally
    refine ⟨UInt64.ofNat t.gas, ?_, by rw [run, tally]; rfl⟩
    rw [UInt64.toNat_ofNat', Nat.mod_eq_of_lt (by omega)]
  · intro offset reason fault
    rw [run, fault]
    rfl

open Machine in
/-- The difference of nine and seven is computed; without the seven there is nothing to subtract. -/
theorem straight_line_difference :
    let seven := StackOp.push ⟨[7], by decide⟩
    let nine := StackOp.push ⟨[0, 9], by decide⟩
    let both := Container.straight [seven, nine, .binary .sub] 2 []
    Container.load both.encode = .ok both ∧
    (∃ gas, gas.toNat = 9 ∧
      (run .basic both .default (.full Limits.gasDefault)).1 = .success gas [2]) ∧
    (run .basic (.straight [nine, .binary .sub] 2 []) .default (.full Limits.gasDefault)).1
      = .exceptionalHalt (.stackUnderflow 2 1) 0 3 1 := by
  intro seven nine both
  have computed := straight_line [seven, nine, .binary .sub] (by simp) (by decide) 2 (by decide) [] (by simp)
  have failed := straight_line [nine, .binary .sub] (by simp) (by decide) 2 (by decide) [] (by simp)
  exact ⟨computed.1, computed.2.1 ⟨[2], 9, 6⟩ rfl, failed.2.2 3 (.stackUnderflow 2 1) rfl⟩

end EvmObject
