import EvmObject.Proofs.SweepOrder
/-!
Which of several defects of a section is told, and where. Main statement: it is the first one in the order of type,
instructions and jumps, and in each of these in the order of the bytes (`defect?_eq_some_iff`).
-/
namespace EvmObject

variable {code : Array UInt8} {count index pc next : Nat} {instr : Instruction} {offset : Int16} {d : Defect}

/-- The first bound that the type of the section at `index` does not keep. -/
inductive CodeType.Breaks (index : Nat) (t : CodeType) : Defect → Prop
  | entry (first : index = 0) (nonzero : ¬ (t.inputs = 0 ∧ t.outputs = 0)) :
    Breaks index t (.entryArity t.inputs t.outputs)
  | inputs (entry : index = 0 → t.inputs = 0 ∧ t.outputs = 0) (many : 127 < t.inputs.toNat) :
    Breaks index t (.inputsOutOfRange t.inputs)
  | outputs (entry : index = 0 → t.inputs = 0 ∧ t.outputs = 0) (few : t.inputs.toNat ≤ 127)
    (many : 127 < t.outputs.toNat) : Breaks index t (.outputsOutOfRange t.outputs)
  | height (entry : index = 0 → t.inputs = 0 ∧ t.outputs = 0) (few : t.inputs.toNat ≤ 127)
    (few' : t.outputs.toNat ≤ 127) (high : 1023 < t.maxStackHeight.toNat) :
    Breaks index t (.stackHeightOutOfRange t.maxStackHeight)

/-- What is wrong with what is at `pc`, where jumps lead apart, in a container of `count` sections. -/
inductive Sweep.Faulty (count : Nat) (code : Array UInt8) (pc : Nat) : Defect → Prop
  | undefined {byte : UInt8} (found : code[pc]? = some byte) (unnamed : Opcode.ofByte? byte = none) :
    Faulty count code pc (.undefinedOpcode byte)
  | truncated {byte : UInt8} {op : Opcode} (found : code[pc]? = some byte)
    (named : Opcode.ofByte? byte = some op) (short : ∀ instr, Instruction.decode code pc ≠ .ok instr) :
    Faulty count code pc (.truncatedOperand byte)
  | call {target : UInt16} (decoded : Instruction.decode code pc = .ok (.callf target))
    (outside : count ≤ target.toNat) : Faulty count code pc (.callTargetOutOfRange target.toNat count)
  | table {table : JumpTable} (decoded : Instruction.decode code pc = .ok (.rjumpv table))
    (empty : table.offsets = []) : Faulty count code pc .emptyJumpTable

/-- What is wrong with where a jump by `offset` from `next` leads. -/
inductive Sweep.Astray (code : Array UInt8) (next : Nat) (offset : Int16) : Defect → Prop
  | outside (far : next + offset.toInt < 0 ∨ code.size ≤ next + offset.toInt) :
    Astray code next offset (.jumpOutOfBounds (next + offset.toInt) code.size)
  | callOperand {target : Nat} (lands : (target : Int) = next + offset.toInt) (inside : InCall code target) :
    Astray code next offset (.jumpIntoCallOperand target)
  | operand {target : Nat} (lands : (target : Int) = next + offset.toInt) (inside : target < code.size)
    (between : ¬ Reaches code target) (other : ¬ InCall code target) :
    Astray code next offset (.jumpIntoOperand target)

/-- The defect of a section that is to be told, and its place. One of the type is told at the first byte. If there
is none, the first bad instruction is told, whatever jumps there are. If there is no such, it is the first bad
offset of the first jump that has one. -/
inductive CodeSection.FirstDefect (count index : Nat) (s : CodeSection) : Nat → Defect → Prop
  | type {d : Defect} (wrong : s.type.Breaks index d) : FirstDefect count index s 0 d
  | code {pc : Nat} {d : Defect} (bounded : s.type.Bounded index) (reached : Sweep.Reaches s.code pc)
    (wrong : Sweep.Faulty count s.code pc d)
    (lowest : ∀ before < pc, Sweep.Reaches s.code before → ∀ d, ¬ Sweep.Faulty count s.code before d) :
    FirstDefect count index s pc d
  | jump {pc : Nat} {instr : Instruction} {front back : List Int16} {offset : Int16} {d : Defect}
    (bounded : s.type.Bounded index)
    (sound : ∀ pc, Sweep.Reaches s.code pc → ∀ d, ¬ Sweep.Faulty count s.code pc d)
    (reached : Sweep.Reaches s.code pc) (decoded : Instruction.decode s.code pc = .ok instr)
    (offsets : instr.offsets = front ++ offset :: back)
    (wrong : Sweep.Astray s.code (pc + instr.length) offset d)
    (others : ∀ other ∈ front, ∀ d, ¬ Sweep.Astray s.code (pc + instr.length) other d)
    (earlier : ∀ before instr, before < pc → Sweep.Reaches s.code before →
      Instruction.decode s.code before = .ok instr → ∀ other ∈ instr.offsets, ∀ d,
      ¬ Sweep.Astray s.code (before + instr.length) other d) :
    FirstDefect count index s pc d

theorem ite_some_eq_some {α : Type} {p : Prop} [Decidable p] {a b : α} {rest : Option α} :
    (if p then some a else rest) = some b ↔ p ∧ a = b ∨ ¬ p ∧ rest = some b := by
  split <;> simp_all

theorem CodeType.defect?_eq_some {t : CodeType} : t.defect? index = some d ↔ t.Breaks index d := by
  have inputs : maxArity < t.inputs ↔ 127 < t.inputs.toNat := UInt8.lt_iff_toNat_lt
  have outputs : maxArity < t.outputs ↔ 127 < t.outputs.toNat := UInt8.lt_iff_toNat_lt
  have height : heightLimit < t.maxStackHeight ↔ 1023 < t.maxStackHeight.toNat :=
    UInt16.lt_iff_toNat_lt
  simp only [defect?, ite_some_eq_some, inputs, outputs, height, Nat.not_lt, not_and_not_right, reduceCtorEq,
    and_false, or_false]
  constructor
  · rintro (⟨⟨first, nonzero⟩, rfl⟩ | ⟨entry, ⟨many, rfl⟩ | ⟨few, ⟨many, rfl⟩ | ⟨few', high, rfl⟩⟩⟩)
    · exact .entry first nonzero
    · exact .inputs entry many
    · exact .outputs entry few many
    · exact .height entry few few' high
  · rintro (⟨first, nonzero⟩ | ⟨entry, many⟩ | ⟨entry, few, many⟩ | ⟨entry, few, few', high⟩)
    · exact .inl ⟨⟨first, nonzero⟩, rfl⟩
    · exact .inr ⟨entry, .inl ⟨many, rfl⟩⟩
    · exact .inr ⟨entry, .inr ⟨few, .inl ⟨many, rfl⟩⟩⟩
    · exact .inr ⟨entry, .inr ⟨few, .inr ⟨few', high, rfl⟩⟩⟩

theorem relativeTarget_eq_none : relativeTarget next offset = none ↔ next + offset.toInt < 0 := by
  unfold relativeTarget
  split <;> simp_all

namespace Instruction

theorem operandDefect?_eq_some : instr.operandDefect? count = some d ↔
    (∃ target, instr = .callf target ∧ count ≤ target.toNat ∧ d = .callTargetOutOfRange target.toNat count) ∨
      ∃ table, instr = .rjumpv table ∧ table.offsets = [] ∧ d = .emptyJumpTable := by
  cases instr <;> simp [operandDefect?, eq_comm]

theorem decode_eq_error (inside : pc < code.size) {e : DecodeError} : decode code pc = .error e ↔
    ∃ byte, code[pc]? = some byte ∧ (Opcode.ofByte? byte = none ∧ e = .undefined byte ∨
      ∃ op, Opcode.ofByte? byte = some op ∧ (∀ instr, decode code pc ≠ .ok instr) ∧ e = .truncated byte) := by
  have found := Array.getElem?_eq_getElem inside
  unfold decode
  rw [found]
  cases named : Opcode.ofByte? code[pc] with
  | none => simp [named, eq_comm]
  | some op => cases operands : readOperands? code (pc + 1) op <;> simp [named, operands, eq_comm]

end Instruction

namespace Sweep

theorem faulty_iff : Faulty count code pc d ↔
    (∃ instr, Instruction.decode code pc = .ok instr ∧ instr.operandDefect? count = some d) ∨
      pc < code.size ∧ ∃ e, Instruction.decode code pc = .error e ∧ d = .ofDecodeError e := by
  constructor
  · intro faulty
    cases faulty with
    | undefined found unnamed =>
      have inside := (Array.getElem?_eq_some_iff.1 found).1
      exact .inr ⟨inside, _, (Instruction.decode_eq_error inside).2 ⟨_, found, .inl ⟨unnamed, rfl⟩⟩, rfl⟩
    | truncated found named short =>
      have inside := (Array.getElem?_eq_some_iff.1 found).1
      exact .inr ⟨inside, _, (Instruction.decode_eq_error inside).2 ⟨_, found, .inr ⟨_, named, short, rfl⟩⟩, rfl⟩
    | call decoded outside =>
      exact .inl ⟨_, decoded, Instruction.operandDefect?_eq_some.2 (.inl ⟨_, rfl, outside, rfl⟩)⟩
    | table decoded empty =>
      exact .inl ⟨_, decoded, Instruction.operandDefect?_eq_some.2 (.inr ⟨_, rfl, empty, rfl⟩)⟩
  · rintro (⟨instr, decoded, wrong⟩ | ⟨inside, e, failed, rfl⟩)
    · obtain ⟨target, rfl, outside, rfl⟩ | ⟨table, rfl, empty, rfl⟩ :=
        Instruction.operandDefect?_eq_some.1 wrong
      · exact .call decoded outside
      · exact .table decoded empty
    · obtain ⟨byte, found, ⟨unnamed, rfl⟩ | ⟨op, named, short, rfl⟩⟩ :=
        (Instruction.decode_eq_error inside).1 failed
      · exact .undefined found unnamed
      · exact .truncated found named short

theorem operandDefect?_eq_some : (ofCode code).operandDefect? count = some (pc, d) ↔
    ∃ instr, Reaches code pc ∧ Instruction.decode code pc = .ok instr ∧ instr.operandDefect? count = some d ∧
      ∀ before instr, before < pc → Reaches code before → Instruction.decode code before = .ok instr →
        instr.operandDefect? count = none := by
  simp only [operandDefect?, findSome?_lines, Option.map_eq_some_iff, Option.map_eq_none_iff, Prod.mk.injEq]
  constructor
  · rintro ⟨_, instr, reached, decoded, ⟨_, wrong, rfl, rfl⟩, none⟩
    exact ⟨instr, reached, decoded, wrong, none⟩
  · rintro ⟨instr, reached, decoded, wrong, none⟩
    exact ⟨pc, instr, reached, decoded, ⟨d, wrong, rfl, rfl⟩, none⟩

theorem operandDefect?_eq_none : (ofCode code).operandDefect? count = none ↔ ∀ pc instr, Reaches code pc →
    Instruction.decode code pc = .ok instr → instr.operandDefect? count = none := by
  simp only [operandDefect?, findSome?_lines_eq_none, Option.map_eq_none_iff]

theorem faultDefect?_eq_some : (ofCode code).faultDefect? = some (pc, d) ↔ Reaches code pc ∧ pc < code.size ∧
    ∃ e, Instruction.decode code pc = .error e ∧ d = .ofDecodeError e := by
  simp only [faultDefect?, Option.map_eq_some_iff, Prod.exists, Prod.mk.injEq]
  constructor
  · rintro ⟨_, e, fault, rfl, rfl⟩
    obtain ⟨reached, inside, failed⟩ := fault_eq_some.1 fault
    exact ⟨reached, inside, e, failed, rfl⟩
  · rintro ⟨reached, inside, e, failed, rfl⟩
    exact ⟨pc, e, fault_eq_some.2 ⟨reached, inside, failed⟩, rfl, rfl⟩

theorem first_faulty : ((ofCode code).operandDefect? count).or (ofCode code).faultDefect? = some (pc, d) ↔
    Reaches code pc ∧ Faulty count code pc d ∧
      ∀ before < pc, Reaches code before → ∀ d, ¬ Faulty count code before d := by
  rw [Option.or_eq_some_iff, operandDefect?_eq_some, operandDefect?_eq_none, faultDefect?_eq_some]
  constructor
  -- A lower fault with good operands would be one where the sweep sticks, and then it would not come by here.
  · rintro (⟨instr, reached, decoded, wrong, none⟩ | ⟨none, reached, inside, e, failed, rfl⟩)
    · refine ⟨reached, faulty_iff.2 (.inl ⟨instr, decoded, wrong⟩), fun before lower reached' d' faulty => ?_⟩
      obtain ⟨instr', decoded', wrong'⟩ | ⟨inside, e, failed, _⟩ := faulty_iff.1 faulty
      · cases (none before instr' lower reached' decoded').symm.trans wrong'
      · exact absurd (reached.le_of_error reached' inside failed) (Nat.not_le_of_lt lower)
    · refine ⟨reached, faulty_iff.2 (.inr ⟨inside, e, failed, rfl⟩), fun before lower reached' d' faulty => ?_⟩
      obtain ⟨instr', decoded', wrong'⟩ | ⟨inside', e', failed', _⟩ := faulty_iff.1 faulty
      · cases (none before instr' reached' decoded').symm.trans wrong'
      · exact absurd (reached.le_of_error reached' inside' failed') (Nat.not_le_of_lt lower)
  · rintro ⟨reached, faulty, lowest⟩
    obtain ⟨instr, decoded, wrong⟩ | ⟨inside, e, failed, rfl⟩ := faulty_iff.1 faulty
    · refine .inl ⟨instr, reached, decoded, wrong, fun before instr' lower reached' decoded' => ?_⟩
      refine Option.eq_none_iff_forall_ne_some.2 fun d' wrong' => ?_
      exact lowest before lower reached' d' (faulty_iff.2 (.inl ⟨instr', decoded', wrong'⟩))
    · refine .inr ⟨fun p instr' reached' decoded' => ?_, reached, inside, e, failed, rfl⟩
      refine Option.eq_none_iff_forall_ne_some.2 fun d' wrong' => ?_
      obtain lower | rfl := Nat.lt_or_eq_of_le (reached'.le_of_error reached inside failed)
      · exact lowest p lower reached' d' (faulty_iff.2 (.inl ⟨instr', decoded', wrong'⟩))
      · cases failed.symm.trans decoded'

theorem fault_eq_none (sound : ∀ pc, Reaches code pc → ∀ d, ¬ Faulty count code pc d) :
    (ofCode code).fault = none := by
  refine Option.eq_none_iff_forall_ne_some.2 ?_
  rintro ⟨pc, e⟩ fault
  obtain ⟨reached, inside, failed⟩ := fault_eq_some.1 fault
  exact sound pc reached _ (faulty_iff.2 (.inr ⟨inside, e, failed, rfl⟩))

theorem no_faulty : ((ofCode code).operandDefect? count).or (ofCode code).faultDefect? = none ↔
    ∀ pc, Reaches code pc → ∀ d, ¬ Faulty count code pc d := by
  constructor
  · intro none pc reached d faulty
    obtain ⟨operands, whole⟩ := Option.or_eq_none_iff.1 none
    obtain ⟨instr, decoded, wrong⟩ | ⟨inside, e, failed, rfl⟩ := faulty_iff.1 faulty
    · cases (operandDefect?_eq_none.1 operands pc instr reached decoded).symm.trans wrong
    · cases whole.symm.trans (faultDefect?_eq_some.2 ⟨reached, inside, e, failed, rfl⟩)
  · intro sound
    refine Option.eq_none_iff_forall_ne_some.2 ?_
    rintro ⟨pc, d⟩ found
    obtain ⟨reached, faulty, _⟩ := first_faulty.1 found
    exact sound pc reached d faulty

theorem landingDefect?_eq_some (whole : (ofCode code).fault = none) :
    landingDefect? (ofCode code).roles next offset = some d ↔ Astray code next offset d := by
  have size := size_roles whole
  constructor
  · intro wrong
    unfold landingDefect? at wrong
    rw [size] at wrong
    split at wrong
    · rename_i before
      cases wrong
      exact .outside (.inl (relativeTarget_eq_none.1 before))
    · rename_i target landed
      have lands := relativeTarget_eq_some.1 landed
      split at wrong
      · rename_i past
        cases wrong
        rw [Array.getElem?_eq_none_iff, size] at past
        exact .outside (.inr (by omega))
      · cases wrong
      · rename_i role
        cases wrong
        obtain ⟨inside, between, other⟩ := (role_eq_operand whole).1 role
        exact .operand lands inside between other
      · rename_i role
        cases wrong
        exact .callOperand lands ((role_eq_callOperand whole).1 role)
  · intro astray
    unfold landingDefect?
    rw [size]
    cases astray with
    | outside far =>
      cases landed : relativeTarget next offset with
      | none => rfl
      | some target =>
        have lands := relativeTarget_eq_some.1 landed
        have past : (ofCode code).roles[target]? = none := Array.getElem?_eq_none (by omega)
        dsimp only
        rw [past]
    | @callOperand target lands inside =>
      rw [relativeTarget_eq_some.2 lands]
      dsimp only
      rw [(role_eq_callOperand whole).2 inside]
    | @operand target lands inside between other =>
      rw [relativeTarget_eq_some.2 lands]
      dsimp only
      rw [(role_eq_operand whole).2 ⟨inside, between, other⟩]

theorem jumpDefect?_eq_some (whole : (ofCode code).fault = none) : (ofCode code).jumpDefect? = some (pc, d) ↔
    ∃ instr front offset back, Reaches code pc ∧ Instruction.decode code pc = .ok instr ∧
      instr.offsets = front ++ offset :: back ∧ Astray code (pc + instr.length) offset d ∧
      (∀ other ∈ front, ∀ d, ¬ Astray code (pc + instr.length) other d) ∧
      ∀ before instr, before < pc → Reaches code before → Instruction.decode code before = .ok instr →
        ∀ other ∈ instr.offsets, ∀ d, ¬ Astray code (before + instr.length) other d := by
  have fine {next : Nat} {offset : Int16} : landingDefect? (ofCode code).roles next offset = none ↔
      ∀ d, ¬ Astray code next offset d := by
    rw [Option.eq_none_iff_forall_ne_some]
    exact forall_congr' fun d => not_congr (landingDefect?_eq_some whole)
  rw [jumpDefect?, findSome?_lines]
  simp only [Option.map_eq_some_iff, Option.map_eq_none_iff, Prod.mk.injEq, List.findSome?_eq_some_iff,
    List.findSome?_eq_none_iff, landingDefect?_eq_some whole, fine]
  constructor
  · rintro ⟨_, instr, reached, decoded, ⟨_, ⟨front, offset, back, offsets, wrong, others⟩, rfl, rfl⟩, earlier⟩
    exact ⟨instr, front, offset, back, reached, decoded, offsets, wrong, others, earlier⟩
  · rintro ⟨instr, front, offset, back, reached, decoded, offsets, wrong, others, earlier⟩
    exact ⟨pc, instr, reached, decoded, ⟨d, ⟨front, offset, back, offsets, wrong, others⟩, rfl, rfl⟩, earlier⟩

end Sweep

/-- The defect of a section that is found, and its place, are those that are to be told. -/
theorem CodeSection.defect?_eq_some_iff (count index : Nat) (s : CodeSection) (pc : Nat) (d : Defect) :
    s.defect? count index = some (pc, d) ↔ s.FirstDefect count index pc d := by
  have phases : s.defect? count index = ((s.type.defect? index).map fun d => (0, d)).or
      ((((Sweep.ofCode s.code).operandDefect? count).or (Sweep.ofCode s.code).faultDefect?).or
        (Sweep.ofCode s.code).jumpDefect?) := by
    simp only [defect?, Option.orElse_eq_orElse, Option.orElse_eq_or, Option.or_assoc]
  rw [phases, Option.or_eq_some_iff, Option.or_eq_some_iff, Option.map_eq_some_iff, Option.map_eq_none_iff,
    CodeType.defect?_eq_none, Sweep.first_faulty, Sweep.no_faulty]
  constructor
  · rintro (⟨d, wrong, ⟨⟩⟩ | ⟨bounded, ⟨reached, wrong, lowest⟩ | ⟨sound, astray⟩⟩)
    · exact .type (CodeType.defect?_eq_some.1 wrong)
    · exact .code bounded reached wrong lowest
    · obtain ⟨instr, front, offset, back, reached, decoded, offsets, wrong, others, earlier⟩ :=
        (Sweep.jumpDefect?_eq_some (Sweep.fault_eq_none sound)).1 astray
      exact .jump bounded sound reached decoded offsets wrong others earlier
  · intro first
    cases first with
    | type wrong => exact .inl ⟨d, CodeType.defect?_eq_some.2 wrong, rfl⟩
    | code bounded reached wrong lowest => exact .inr ⟨bounded, .inl ⟨reached, wrong, lowest⟩⟩
    | jump bounded sound reached decoded offsets wrong others earlier =>
      refine .inr ⟨bounded, .inr ⟨sound, (Sweep.jumpDefect?_eq_some (Sweep.fault_eq_none sound)).2 ?_⟩⟩
      exact ⟨_, _, _, _, reached, decoded, offsets, wrong, others, earlier⟩

end EvmObject
