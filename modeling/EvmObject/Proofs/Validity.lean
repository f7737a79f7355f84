import EvmObject.Machine.Step
import EvmObject.Proofs.Sweep
/-!
What validation makes sure of. Main statements: a container is valid just if no section has a defect
(`validate_eq_ok`), sections without a defect are legal (`legal_of_validate`) and have a type within the
bounds (`CodeType.defect?_eq_none`), and in a legal section every instruction, every jump and every call
leads to where an instruction starts or the section ends (`Legal.land`, `Legal.after`, `Legal.entry`).
-/
namespace EvmObject

variable {c : Container} {s : CodeSection} {count index pc : Nat} {instr : Instruction}

/-- A section of `count` whose sweep covers it, whose calls lead to sections that there are, and whose
jumps lead to where an instruction starts. -/
structure CodeSection.Legal (count : Nat) (s : CodeSection) : Prop where
  whole : (Sweep.ofCode s.code).fault = none
  calls : ∀ line ∈ (Sweep.ofCode s.code).lines, ∀ target, line.2 = .callf target →
    target.toNat < count
  jumps : ∀ line ∈ (Sweep.ofCode s.code).lines, ∀ offset ∈ line.2.offsets,
    ∃ target, relativeTarget (line.1 + line.2.length) offset = some target ∧
      target ∈ (Sweep.ofCode s.code).starts

/-- Where an instruction of the sweep starts, or the section ends. -/
def CodeSection.IsBoundary (s : CodeSection) (pc : Nat) : Prop :=
  pc ∈ (Sweep.ofCode s.code).starts ∨ pc = s.code.size

structure Container.Legal (c : Container) : Prop where
  sections : ∀ s ∈ c.sections, s.Legal c.sections.size
  entry : 0 < c.sections.size

/-- The bounds on the type of the section at `index`; the entry takes nothing and leaves nothing. -/
structure CodeType.Bounded (index : Nat) (t : CodeType) : Prop where
  inputs_le : t.inputs.toNat ≤ 127
  outputs_le : t.outputs.toNat ≤ 127
  height_le : t.maxStackHeight.toNat ≤ 1023
  entry : index = 0 → t.inputs = 0 ∧ t.outputs = 0

theorem ite_some_eq_none {α : Type} {p : Prop} [Decidable p] {a : α} {rest : Option α} :
    (if p then some a else rest) = none ↔ ¬ p ∧ rest = none := by
  split <;> simp_all

theorem CodeType.defect?_eq_none {t : CodeType} : t.defect? index = none ↔ t.Bounded index := by
  have inputs : maxArity < t.inputs ↔ 127 < t.inputs.toNat := UInt8.lt_iff_toNat_lt
  have outputs : maxArity < t.outputs ↔ 127 < t.outputs.toNat := UInt8.lt_iff_toNat_lt
  have height : heightLimit < t.maxStackHeight ↔ 1023 < t.maxStackHeight.toNat :=
    UInt16.lt_iff_toNat_lt
  simp only [defect?, ite_some_eq_none, inputs, outputs, height, Nat.not_lt, not_and_not_right,
    and_true]
  constructor
  · rintro ⟨entry, inputs_le, outputs_le, height_le⟩
    exact ⟨inputs_le, outputs_le, height_le, entry⟩
  · intro h
    exact ⟨h.entry, h.inputs_le, h.outputs_le, h.height_le⟩

theorem Instruction.operandDefect?_eq_none : instr.operandDefect? count = none ↔
    (∀ target, instr = .callf target → target.toNat < count) ∧
      ∀ table, instr = .rjumpv table → table.offsets ≠ [] := by
  cases instr <;> simp [operandDefect?]

theorem relativeTarget_eq_some {next target : Nat} {offset : Int16} :
    relativeTarget next offset = some target ↔ (target : Int) = next + offset.toInt := by
  unfold relativeTarget
  split
  · simp
    omega
  · rw [Option.some_inj]
    omega

theorem Sweep.landingDefect?_eq_none {roles : Array ByteRole} {next : Nat} {offset : Int16} :
    landingDefect? roles next offset = none ↔
      ∃ target, relativeTarget next offset = some target ∧ roles[target]? = some .opcode := by
  unfold landingDefect?
  cases relativeTarget next offset with
  | none => simp
  | some target =>
    dsimp only
    split <;> simp_all

theorem Sweep.role_iff_start {code : Array UInt8} (whole : (ofCode code).fault = none) {pc : Nat} :
    (ofCode code).roles[pc]? = some .opcode ↔ pc ∈ (ofCode code).starts := by
  rw [Sweep.roles, List.getElem?_toArray, (tiles_ofCode whole).role_iff, Nat.zero_add, starts]

theorem Sweep.lands_iff {code : Array UInt8} (whole : (ofCode code).fault = none) {next : Nat}
    {offset : Int16} : landingDefect? (ofCode code).roles next offset = none ↔
      ∃ target, relativeTarget next offset = some target ∧ target ∈ (ofCode code).starts := by
  simp only [landingDefect?_eq_none, role_iff_start whole]

namespace CodeSection

theorem defect?_eq_none : s.defect? count index = none ↔
    s.type.Bounded index ∧ (Sweep.ofCode s.code).fault = none ∧
      (∀ line ∈ (Sweep.ofCode s.code).lines, line.2.operandDefect? count = none) ∧
      ∀ line ∈ (Sweep.ofCode s.code).lines, ∀ offset ∈ line.2.offsets,
        Sweep.landingDefect? (Sweep.ofCode s.code).roles (line.1 + line.2.length) offset = none := by
  simp only [defect?, Option.orElse_eq_orElse, Option.orElse_eq_or, Option.or_eq_none_iff,
    Option.map_eq_none_iff, CodeType.defect?_eq_none, Sweep.operandDefect?, Sweep.faultDefect?,
    Sweep.jumpDefect?, List.findSome?_eq_none_iff]
  tauto

theorem legal_of_defect? (h : s.defect? count index = none) : s.Legal count := by
  obtain ⟨_, whole, operands, landings⟩ := defect?_eq_none.1 h
  refine ⟨whole, ?_, ?_⟩
  · intro line member
    exact (Instruction.operandDefect?_eq_none.1 (operands line member)).1
  · intro line member offset among
    exact (Sweep.lands_iff whole).1 (landings line member offset among)

namespace Legal

theorem tiles (h : s.Legal count) :
    Sweep.Tiles s.code 0 (Sweep.ofCode s.code).lines s.code.size :=
  Sweep.tiles_ofCode h.whole

theorem entry (h : s.Legal count) : s.IsBoundary 0 := h.tiles.first

theorem line_of_decode (h : s.Legal count) (boundary : s.IsBoundary pc)
    (decoded : Instruction.decode s.code pc = .ok instr) :
    (pc, instr) ∈ (Sweep.ofCode s.code).lines := by
  obtain start | stop := boundary
  · obtain ⟨line, member, rfl⟩ := List.mem_map.1 start
    cases decoded.symm.trans (h.tiles.decode_of_mem member)
    exact member
  · have inside := (Instruction.decode_bounds decoded).1
    omega

theorem decodes (h : s.Legal count) (boundary : s.IsBoundary pc) (inside : pc < s.code.size) :
    ∃ instr, Instruction.decode s.code pc = .ok instr := by
  obtain start | stop := boundary
  · obtain ⟨line, member, rfl⟩ := List.mem_map.1 start
    exact ⟨line.2, h.tiles.decode_of_mem member⟩
  · omega

theorem after (h : s.Legal count) (boundary : s.IsBoundary pc)
    (decoded : Instruction.decode s.code pc = .ok instr) : s.IsBoundary (pc + instr.length) :=
  h.tiles.after (h.line_of_decode boundary decoded)

theorem land (h : s.Legal count) (boundary : s.IsBoundary pc)
    (decoded : Instruction.decode s.code pc = .ok instr) {jump : Option Int16}
    (known : ∀ offset, jump = some offset → offset ∈ instr.offsets) :
    ∃ target, Machine.land s.code (pc + instr.length) jump = .ok target ∧ s.IsBoundary target := by
  cases jump with
  | none => exact ⟨_, rfl, h.after boundary decoded⟩
  | some offset =>
    obtain ⟨target, found, start⟩ :=
      h.jumps _ (h.line_of_decode boundary decoded) offset (known offset rfl)
    obtain ⟨line, member, rfl⟩ := List.mem_map.1 start
    have inside := (Instruction.decode_bounds (h.tiles.decode_of_mem member)).1
    exact ⟨line.1, by simp [Machine.land, found, inside], .inl start⟩

end Legal
end CodeSection

namespace Container

theorem defectFrom?_eq_none {sections : List CodeSection} : defectFrom? count index sections = none ↔
    ∀ (i : Nat) (s : CodeSection), sections[i]? = some s →
      s.defect? count (index + i) = none := by
  induction sections generalizing index with
  | nil => simp [defectFrom?]
  | cons s rest ih =>
    have later : defectFrom? count index (s :: rest) = none ↔
        s.defect? count index = none ∧ defectFrom? count (index + 1) rest = none := by
      rw [defectFrom?]
      cases s.defect? count index <;> simp
    rw [later, ih]
    constructor
    · rintro ⟨first, others⟩ i t found
      cases i with
      | zero =>
        cases found
        exact first
      | succ i =>
        rw [Nat.add_succ, ← Nat.succ_add]
        exact others i t found
    · intro h
      refine ⟨h 0 s rfl, ?_⟩
      intro i t found
      rw [Nat.succ_add, ← Nat.add_succ]
      exact h (i + 1) t found

theorem validate_eq_ok : c.validate = .ok () ↔
    ∀ (i : Nat) (s : CodeSection), c.sections[i]? = some s →
      s.defect? c.sections.size i = none := by
  have same : c.validate = .ok () ↔ defectFrom? c.sections.size 0 c.sections.toList = none := by
    rw [validate]
    cases defectFrom? c.sections.size 0 c.sections.toList <;> simp
  rw [same, defectFrom?_eq_none]
  simp only [Array.getElem?_toList, Nat.zero_add]

theorem bounded_of_validate (h : c.validate = .ok ()) (found : c.sections[index]? = some s) :
    s.type.Bounded index :=
  (CodeSection.defect?_eq_none.1 (validate_eq_ok.1 h index s found)).1

theorem legal_of_validate (h : c.validate = .ok ()) : ∀ s ∈ c.sections, s.Legal c.sections.size := by
  intro s member
  obtain ⟨i, found⟩ := Array.getElem?_of_mem member
  exact CodeSection.legal_of_defect? (validate_eq_ok.1 h i s found)

end Container
end EvmObject
