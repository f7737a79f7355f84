import EvmObject.Proofs.Validity
/-!
Where the sweep of a code comes by. Main statements: its lines are what is decoded there (`mem_lines`), in the
order of their offsets (`findSome?_lines`), it sticks where nothing is decoded (`fault_eq_some`), and the role of a
byte tells whether an instruction starts with it (`role_eq_opcode`) and whether it is part of the operand of a call
(`role_eq_callOperand`).
-/
namespace EvmObject

variable {code : Array UInt8} {pc stop k : Nat} {instr : Instruction} {lines : List (Nat × Instruction)}

theorem Instruction.roles_eq_callOperand {j : Nat} : instr.roles[j]? = some .callOperand ↔
    ∃ target, instr = .callf target ∧ (j = 1 ∨ j = 2) := by
  cases j with
  | zero => simp [roles]
  | succ j =>
    simp only [roles, List.getElem?_cons_succ, List.getElem?_replicate]
    cases instr with
    | callf target =>
      have rest : length (.callf target) - 1 = 2 := rfl
      simp [rest]
      omega
    | _ => simp

namespace Sweep

/-- Where the sweep of the code comes by: at the first byte, and behind each instruction that it meets. -/
inductive Reaches (code : Array UInt8) : Nat → Prop
  | first : Reaches code 0
  | behind {pc : Nat} {instr : Instruction} (before : Reaches code pc)
    (decoded : Instruction.decode code pc = .ok instr) : Reaches code (pc + instr.length)

theorem Tiles.reaches (h : Tiles code pc lines stop) (start : Reaches code pc) :
    (∀ line ∈ lines, Reaches code line.1) ∧ Reaches code stop := by
  induction h with
  | nil => exact ⟨by simp, start⟩
  | cons decoded rest ih =>
    obtain ⟨others, last⟩ := ih (start.behind decoded)
    exact ⟨List.forall_mem_cons.2 ⟨start, others⟩, last⟩

theorem Tiles.lt_stop (h : Tiles code pc lines stop) : pc ≤ stop ∧ ∀ line ∈ lines, line.1 < stop := by
  induction h with
  | nil => exact ⟨Nat.le_refl _, by simp⟩
  | @cons pc stop instr lines decoded rest ih =>
    have pos := instr.length_pos
    have lt : pc < stop := by omega
    exact ⟨Nat.le_of_lt lt, List.forall_mem_cons.2 ⟨lt, ih.2⟩⟩

theorem Tiles.pairwise (h : Tiles code pc lines stop) : lines.Pairwise fun a b => a.1 < b.1 := by
  induction h with
  | nil => exact .nil
  | @cons pc stop instr lines decoded rest ih =>
    refine List.pairwise_cons.2 ⟨fun line member => ?_, ih⟩
    have pos := instr.length_pos
    have low := rest.le_of_mem member
    dsimp only
    omega

theorem decode_of_fault {e : DecodeError} (fault : (ofCode code).fault = some (pc, e)) :
    pc < code.size ∧ Instruction.decode code pc = .error e := by
  have all (low : Nat) (met : List (Nat × Instruction)) : (onward code low met).fault = some (pc, e) →
      pc < code.size ∧ Instruction.decode code pc = .error e := by
    fun_induction onward code low met with
    | case1 low met inside instr decoded ih => exact ih
    | case2 low met inside e' failed =>
      rintro ⟨⟩
      exact ⟨inside, failed⟩
    | case3 low met outside => simp
  exact all 0 [] fault

/-- At the end of the sweep nothing is decoded, be it for a fault or for want of bytes. -/
theorem decode_reach (code : Array UInt8) (instr : Instruction) :
    Instruction.decode code ((ofCode code).reach code.size) ≠ .ok instr := by
  intro decoded
  unfold reach at decoded
  split at decoded
  · rename_i fault
    cases (decode_of_fault fault).2.symm.trans decoded
  · exact absurd (Instruction.decode_bounds decoded).1 (Nat.lt_irrefl _)

theorem Reaches.start_or_reach (h : Reaches code pc) :
    pc ∈ (ofCode code).starts ∨ pc = (ofCode code).reach code.size := by
  induction h with
  | first => exact (tiles_reach code).first
  | behind before decoded ih =>
    obtain start | last := ih
    · obtain ⟨line, member, rfl⟩ := List.mem_map.1 start
      cases decoded.symm.trans ((tiles_reach code).decode_of_mem member)
      exact (tiles_reach code).after member
    · exact absurd decoded (last ▸ decode_reach code _)

theorem mem_lines : (pc, instr) ∈ (ofCode code).lines ↔
    Reaches code pc ∧ Instruction.decode code pc = .ok instr := by
  constructor
  · intro member
    exact ⟨((tiles_reach code).reaches .first).1 _ member, (tiles_reach code).decode_of_mem member⟩
  · rintro ⟨reached, decoded⟩
    obtain start | last := reached.start_or_reach
    · obtain ⟨line, member, rfl⟩ := List.mem_map.1 start
      cases decoded.symm.trans ((tiles_reach code).decode_of_mem member)
      exact member
    · exact absurd decoded (last ▸ decode_reach code _)

theorem fault_eq_some {e : DecodeError} : (ofCode code).fault = some (pc, e) ↔
    Reaches code pc ∧ pc < code.size ∧ Instruction.decode code pc = .error e := by
  constructor
  · intro fault
    have last : (ofCode code).reach code.size = pc := by rw [reach, fault]
    exact ⟨last ▸ ((tiles_reach code).reaches .first).2, decode_of_fault fault⟩
  · rintro ⟨reached, inside, failed⟩
    obtain start | last := reached.start_or_reach
    · obtain ⟨line, member, rfl⟩ := List.mem_map.1 start
      cases failed.symm.trans ((tiles_reach code).decode_of_mem member)
    · unfold reach at last
      split at last
      · rename_i fault
        cases failed.symm.trans (last ▸ (decode_of_fault fault).2)
        rw [fault, last]
      · omega

theorem Reaches.le_of_error {p : Nat} {e : DecodeError} (h : Reaches code p) (reached : Reaches code pc)
    (inside : pc < code.size) (failed : Instruction.decode code pc = .error e) : p ≤ pc := by
  have last : (ofCode code).reach code.size = pc := by rw [reach, fault_eq_some.2 ⟨reached, inside, failed⟩]
  obtain start | rfl := h.start_or_reach
  · obtain ⟨line, member, rfl⟩ := List.mem_map.1 start
    exact Nat.le_of_lt (last ▸ (tiles_reach code).lt_stop.2 line member)
  · exact Nat.le_of_eq last

variable {α : Type} {f : Nat × Instruction → Option α} {a : α}

theorem findSome?_lines : (ofCode code).lines.findSome? f = some a ↔ ∃ pc instr, Reaches code pc ∧
    Instruction.decode code pc = .ok instr ∧ f (pc, instr) = some a ∧
      ∀ before instr, before < pc → Reaches code before → Instruction.decode code before = .ok instr →
        f (before, instr) = none := by
  rw [List.findSome?_eq_some_iff]
  have sorted := (tiles_reach code).pairwise
  constructor
  · rintro ⟨front, ⟨pc, instr⟩, back, shape, found, none⟩
    rw [shape] at sorted
    obtain ⟨reached, decoded⟩ := mem_lines.1 (shape ▸ List.mem_append_right front List.mem_cons_self)
    refine ⟨pc, instr, reached, decoded, found, fun before instr' lower reached' decoded' => ?_⟩
    have member := mem_lines.2 ⟨reached', decoded'⟩
    rw [shape, List.mem_append, List.mem_cons] at member
    obtain ahead | same | later := member
    · exact none _ ahead
    · cases same
      exact absurd lower (Nat.lt_irrefl _)
    · have higher := (List.pairwise_cons.1 (List.pairwise_append.1 sorted).2.1).1 _ later
      exact absurd lower (Nat.lt_asymm higher)
  · rintro ⟨pc, instr, reached, decoded, found, none⟩
    obtain ⟨front, back, shape⟩ := List.append_of_mem (mem_lines.2 ⟨reached, decoded⟩)
    rw [shape] at sorted
    refine ⟨front, (pc, instr), back, shape, found, ?_⟩
    rintro ⟨before, instr'⟩ ahead
    have lower := (List.pairwise_append.1 sorted).2.2 _ ahead _ List.mem_cons_self
    obtain ⟨reached', decoded'⟩ := mem_lines.1 (shape ▸ List.mem_append_left _ ahead)
    exact none before instr' lower reached' decoded'

theorem findSome?_lines_eq_none : (ofCode code).lines.findSome? f = none ↔
    ∀ pc instr, Reaches code pc → Instruction.decode code pc = .ok instr → f (pc, instr) = none := by
  rw [List.findSome?_eq_none_iff]
  constructor
  · intro none pc instr reached decoded
    exact none _ (mem_lines.2 ⟨reached, decoded⟩)
  · rintro none ⟨pc, instr⟩ member
    obtain ⟨reached, decoded⟩ := mem_lines.1 member
    exact none pc instr reached decoded

def InCall (code : Array UInt8) (k : Nat) : Prop :=
  ∃ pc target, Reaches code pc ∧ Instruction.decode code pc = .ok (.callf target) ∧ (k = pc + 1 ∨ k = pc + 2)

theorem Tiles.role_of_mem (h : Tiles code pc lines stop) {line : Nat × Instruction} (member : line ∈ lines)
    {j : Nat} (within : j < line.2.length) :
    (lines.flatMap fun line => line.2.roles)[line.1 - pc + j]? = line.2.roles[j]? := by
  induction h with
  | nil => cases member
  | @cons pc stop instr lines decoded rest ih =>
    rw [List.flatMap_cons]
    dsimp only
    obtain rfl | later := List.mem_cons.1 member
    · rw [Nat.sub_self, Nat.zero_add, List.getElem?_append_left (by rwa [Instruction.length_roles])]
    · have low := rest.le_of_mem later
      have shift : line.1 - pc + j - instr.length = line.1 - (pc + instr.length) + j := by omega
      rw [List.getElem?_append_right (by rw [Instruction.length_roles]; omega), Instruction.length_roles, shift,
        ih later]

theorem Tiles.exists_line (h : Tiles code pc lines stop) (low : pc ≤ k) (high : k < stop) :
    ∃ line ∈ lines, ∃ j < line.2.length, k = line.1 + j := by
  induction h with
  | nil => omega
  | @cons pc stop instr lines decoded rest ih =>
    by_cases inside : k < pc + instr.length
    · exact ⟨(pc, instr), List.mem_cons_self, k - pc, by dsimp only; omega, by dsimp only; omega⟩
    · obtain ⟨line, member, found⟩ := ih (Nat.le_of_not_lt inside) high
      exact ⟨line, List.mem_cons_of_mem _ member, found⟩

theorem Tiles.length_roles (h : Tiles code pc lines stop) :
    pc + (lines.flatMap fun line => line.2.roles).length = stop := by
  induction h with
  | nil => rfl
  | cons decoded rest ih =>
    rw [List.flatMap_cons, List.length_append, Instruction.length_roles, ← Nat.add_assoc, ih]

section Whole

variable (whole : (ofCode code).fault = none)

include whole

theorem size_roles : (ofCode code).roles.size = code.size := by
  have length := (tiles_ofCode whole).length_roles
  rwa [Nat.zero_add] at length

theorem role_eq_opcode : (ofCode code).roles[k]? = some .opcode ↔ k < code.size ∧ Reaches code k := by
  rw [role_iff_start whole]
  constructor
  · intro start
    obtain ⟨line, member, rfl⟩ := List.mem_map.1 start
    obtain ⟨reached, decoded⟩ := mem_lines.1 member
    exact ⟨(Instruction.decode_bounds decoded).1, reached⟩
  · rintro ⟨inside, reached⟩
    obtain start | last := reached.start_or_reach
    · exact start
    · rw [reach, whole] at last
      exact absurd inside (Nat.not_lt_of_le (Nat.le_of_eq last.symm))

theorem role_eq_callOperand : (ofCode code).roles[k]? = some .callOperand ↔ InCall code k := by
  have tiles := tiles_ofCode whole
  constructor
  · intro role
    obtain ⟨inside, _⟩ := Array.getElem?_eq_some_iff.1 role
    rw [size_roles whole] at inside
    obtain ⟨⟨pc, instr⟩, member, j, within, rfl⟩ := tiles.exists_line (Nat.zero_le k) inside
    have same := tiles.role_of_mem member within
    rw [roles, List.getElem?_toArray, ← Nat.sub_zero pc, same] at role
    obtain ⟨target, rfl, place⟩ := Instruction.roles_eq_callOperand.1 role
    obtain ⟨reached, decoded⟩ := mem_lines.1 member
    exact ⟨pc, target, reached, decoded, place.imp (congrArg (pc + ·)) (congrArg (pc + ·))⟩
  · rintro ⟨pc, target, reached, decoded, place⟩
    have roles_of_line := tiles.role_of_mem (mem_lines.2 ⟨reached, decoded⟩) (j := k - pc)
      (by have length : Instruction.length (.callf target) = 3 := rfl; dsimp only; omega)
    dsimp only at roles_of_line
    rw [Nat.sub_zero, Nat.add_sub_cancel' (by omega)] at roles_of_line
    rw [roles, List.getElem?_toArray, roles_of_line]
    exact Instruction.roles_eq_callOperand.2 ⟨target, rfl, by omega⟩

theorem role_eq_operand : (ofCode code).roles[k]? = some .operand ↔
    k < code.size ∧ ¬ Reaches code k ∧ ¬ InCall code k := by
  constructor
  · intro role
    have inside : k < code.size := size_roles whole ▸ (Array.getElem?_eq_some_iff.1 role).1
    refine ⟨inside, fun reached => ?_, fun called => ?_⟩
    · cases role.symm.trans ((role_eq_opcode whole).2 ⟨inside, reached⟩)
    · cases role.symm.trans ((role_eq_callOperand whole).2 called)
  · rintro ⟨inside, between, other⟩
    rw [← size_roles whole] at inside
    have found := Array.getElem?_eq_getElem inside
    cases role : (ofCode code).roles[k] with
    | opcode => exact absurd ((role_eq_opcode whole).1 (role ▸ found)).2 between
    | operand => exact role ▸ found
    | callOperand => exact absurd ((role_eq_callOperand whole).1 (role ▸ found)) other

end Whole

end Sweep
end EvmObject
