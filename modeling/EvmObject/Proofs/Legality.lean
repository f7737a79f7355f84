import EvmObject.Proofs.Validity
/-!
Which sections pass validation, told without the sweep: those that are written as instructions one
after the other and obey the rules. Main statement: `defect?_eq_none_iff`.
-/
namespace EvmObject

variable {code : Array UInt8} {count : Nat} {instrs : List Instruction}

/-- The rules for the instructions of a section, in a container of `count` sections. A jump has to lead
to the first byte of one of them; it counts from behind its whole instruction. -/
structure Instruction.Obey (count : Nat) (instrs : List Instruction) : Prop where
  calls : ∀ target, callf target ∈ instrs → target.toNat < count
  tables : ∀ table, rjumpv table ∈ instrs → 0 < table.offsets.length
  jumps : ∀ line ∈ placed 0 instrs, ∀ offset ∈ line.2.offsets, ∃ start ∈ placed 0 instrs,
    (start.1 : Int) = (line.1 + line.2.length : Nat) + offset.toInt

namespace Sweep

theorem operands_iff : (∀ line ∈ Instruction.placed 0 instrs, line.2.operandDefect? count = none) ↔
    (∀ target, .callf target ∈ instrs → target.toNat < count) ∧
      ∀ table, .rjumpv table ∈ instrs → 0 < table.offsets.length := by
  constructor
  · intro fine
    refine ⟨?_, ?_⟩
    · intro target among
      obtain ⟨start, member⟩ := Instruction.exists_mem_placed 0 among
      exact (Instruction.operandDefect?_eq_none.1 (fine _ member)).1 target rfl
    · intro table among
      obtain ⟨start, member⟩ := Instruction.exists_mem_placed 0 among
      exact List.length_pos_iff.2 ((Instruction.operandDefect?_eq_none.1 (fine _ member)).2 table rfl)
  · rintro ⟨calls, tables⟩ line member
    have among := Instruction.mem_of_mem_placed member
    refine Instruction.operandDefect?_eq_none.2 ⟨?_, ?_⟩
    · intro target same
      exact calls target (same ▸ among)
    · intro table same
      exact List.length_pos_iff.1 (tables table (same ▸ among))

theorem landing_iff (written : code.toList = instrs.flatMap Instruction.encode) {next : Nat}
    {offset : Int16} : landingDefect? (ofCode code).roles next offset = none ↔
      ∃ start ∈ Instruction.placed 0 instrs, (start.1 : Int) = (next : Nat) + offset.toInt := by
  have whole : (ofCode code).fault = none := by rw [ofCode_written written]
  rw [lands_iff whole, starts, ofCode_written written]
  constructor
  · rintro ⟨target, found, member⟩
    obtain ⟨start, among, rfl⟩ := List.mem_map.1 member
    exact ⟨start, among, relativeTarget_eq_some.1 found⟩
  · rintro ⟨start, among, same⟩
    exact ⟨start.1, relativeTarget_eq_some.2 same, List.mem_map_of_mem among⟩

end Sweep

/-- A section passes all checks just if its type is within the bounds and its code consists of complete
encodings of instructions that obey the rules. -/
theorem CodeSection.defect?_eq_none_iff (count index : Nat) (s : CodeSection) :
    s.defect? count index = none ↔ s.type.Bounded index ∧
      ∃ instrs : List Instruction, s.code.toList = instrs.flatMap Instruction.encode ∧
        Instruction.Obey count instrs := by
  rw [defect?_eq_none]
  constructor
  · rintro ⟨bounded, whole, operands, landings⟩
    obtain ⟨instrs, written⟩ := Sweep.written_of_fault whole
    rw [Sweep.ofCode_written written] at operands
    obtain ⟨calls, tables⟩ := Sweep.operands_iff.1 operands
    refine ⟨bounded, instrs, written, calls, tables, ?_⟩
    intro line member offset among
    have fine := landings line (by rwa [Sweep.ofCode_written written]) offset among
    exact (Sweep.landing_iff written).1 fine
  · rintro ⟨bounded, instrs, written, obey⟩
    have sweep := Sweep.ofCode_written written
    refine ⟨bounded, by rw [sweep], ?_, ?_⟩
    · rw [sweep]
      exact Sweep.operands_iff.2 ⟨obey.calls, obey.tables⟩
    · intro line member offset among
      rw [sweep] at member
      exact (Sweep.landing_iff written).2 (obey.jumps line member offset among)

end EvmObject
