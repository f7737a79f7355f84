import EvmObject.Proofs.Encoding
import EvmObject.Validation
/-!
The lines of a sweep lie end to end: each instruction starts where the one before it ends. Main
statements: just those bytes that a sweep starts an instruction at have the role of an opcode
(`Tiles.role_iff`), and a sweep has no fault just where the code is written as instructions one after
the other, which are then its lines (`ofCode_written`, `written_of_fault`).
-/
namespace EvmObject

variable {code : Array UInt8} {pc stop : Nat} {instr : Instruction}
  {instrs : List Instruction} {lines : List (Nat × Instruction)}

namespace Instruction

theorem length_roles (instr : Instruction) : instr.roles.length = instr.length := by
  have := instr.length_pos
  simp only [roles, List.length_cons, List.length_replicate]
  omega

theorem roles_eq_opcode {k : Nat} : instr.roles[k]? = some .opcode ↔ k = 0 := by
  cases k with
  | zero => simp [roles]
  | succ k =>
    simp only [roles, List.getElem?_cons_succ, List.getElem?_replicate, Nat.succ_ne_zero, iff_false]
    split
    · cases instr <;> nofun
    · nofun

/-- Instructions one after the other from `pc` on, each with the offset of its first byte. -/
def placed (pc : Nat) : List Instruction → List (Nat × Instruction)
  | [] => []
  | instr :: rest => (pc, instr) :: placed (pc + instr.length) rest

theorem map_placed (pc : Nat) (instrs : List Instruction) : (placed pc instrs).map Prod.snd = instrs := by
  induction instrs generalizing pc with
  | nil => rfl
  | cons instr rest ih => rw [placed, List.map_cons, ih]

theorem mem_of_mem_placed {line : Nat × Instruction} (member : line ∈ placed pc instrs) :
    line.2 ∈ instrs := by
  rw [← map_placed pc instrs]
  exact List.mem_map_of_mem member

theorem exists_mem_placed (pc : Nat) (member : instr ∈ instrs) : ∃ start, (start, instr) ∈ placed pc instrs := by
  rw [← map_placed pc instrs] at member
  obtain ⟨line, placed, rfl⟩ := List.mem_map.1 member
  exact ⟨line.1, placed⟩

end Instruction

namespace Sweep

def starts (s : Sweep) : List Nat := s.lines.map Prod.fst

/-- Instructions that lie end to end from `pc` to `stop`. -/
inductive Tiles (code : Array UInt8) : (pc : Nat) → List (Nat × Instruction) → (stop : Nat) → Prop
  | nil (pc : Nat) : Tiles code pc [] pc
  | cons {pc stop : Nat} {instr : Instruction} {lines : List (Nat × Instruction)}
    (decoded : Instruction.decode code pc = .ok instr)
    (rest : Tiles code (pc + instr.length) lines stop) : Tiles code pc ((pc, instr) :: lines) stop

/-- Where a sweep of `size` bytes ends: where it sticks, or behind the last byte. -/
def reach (s : Sweep) (size : Nat) : Nat :=
  match s.fault with
  | some (pc, _) => pc
  | none => size

theorem tiles_onward (code : Array UInt8) (pc : Nat) (met : List (Nat × Instruction))
    (within : pc ≤ code.size) :
    ∃ lines, (onward code pc met).lines = met.reverse ++ lines ∧
      Tiles code pc lines ((onward code pc met).reach code.size) := by
  fun_induction onward code pc met with
  | case1 pc met inside instr decoded ih =>
    obtain ⟨lines, shape, tiles⟩ := ih (Instruction.decode_bounds decoded).2
    refine ⟨(pc, instr) :: lines, ?_, .cons decoded tiles⟩
    rw [shape, List.reverse_cons, List.append_assoc, List.singleton_append]
  | case2 pc met inside e failed => exact ⟨[], (List.append_nil _).symm, .nil pc⟩
  | case3 pc met outside =>
    refine ⟨[], (List.append_nil _).symm, ?_⟩
    rw [Nat.le_antisymm within (Nat.le_of_not_lt outside)]
    exact .nil code.size

theorem tiles_reach (code : Array UInt8) :
    Tiles code 0 (ofCode code).lines ((ofCode code).reach code.size) := by
  obtain ⟨lines, shape, tiles⟩ := tiles_onward code 0 [] (Nat.zero_le _)
  exact shape ▸ tiles

theorem tiles_ofCode (whole : (ofCode code).fault = none) :
    Tiles code 0 (ofCode code).lines code.size := by
  have reached : (ofCode code).reach code.size = code.size := by rw [reach, whole]
  exact reached ▸ tiles_reach code

namespace Tiles

theorem decode_of_mem (h : Tiles code pc lines stop) {line : Nat × Instruction}
    (member : line ∈ lines) : Instruction.decode code line.1 = .ok line.2 := by
  induction h with
  | nil => nomatch member
  | cons decoded rest ih =>
    obtain rfl | later := List.mem_cons.1 member
    · exact decoded
    · exact ih later

theorem first (h : Tiles code pc lines stop) : pc ∈ lines.map Prod.fst ∨ pc = stop := by
  cases h with
  | nil => exact .inr rfl
  | cons => exact .inl List.mem_cons_self

theorem after (h : Tiles code pc lines stop) {line : Nat × Instruction} (member : line ∈ lines) :
    line.1 + line.2.length ∈ lines.map Prod.fst ∨ line.1 + line.2.length = stop := by
  induction h with
  | nil => nomatch member
  | cons decoded rest ih =>
    obtain rfl | later := List.mem_cons.1 member
    · exact rest.first.imp_left (List.mem_cons_of_mem _)
    · exact (ih later).imp_left (List.mem_cons_of_mem _)

theorem le_of_mem (h : Tiles code pc lines stop) {line : Nat × Instruction} (member : line ∈ lines) :
    pc ≤ line.1 := by
  induction h with
  | nil => nomatch member
  | cons decoded rest ih =>
    obtain rfl | later := List.mem_cons.1 member
    · exact Nat.le_refl _
    · exact Nat.le_trans (Nat.le_add_right _ _) (ih later)

theorem role_iff (h : Tiles code pc lines stop) {k : Nat} :
    (lines.flatMap fun line => line.2.roles)[k]? = some .opcode ↔ pc + k ∈ lines.map Prod.fst := by
  induction h generalizing k with
  | nil => simp
  | @cons pc stop instr lines decoded rest ih =>
    rw [List.flatMap_cons, List.map_cons, List.mem_cons]
    by_cases inside : k < instr.length
    · have later : pc + k ∉ lines.map Prod.fst := by
        intro start
        obtain ⟨line, member, same⟩ := List.mem_map.1 start
        have := rest.le_of_mem member
        omega
      rw [List.getElem?_append_left (by rwa [Instruction.length_roles]), Instruction.roles_eq_opcode]
      simp [later]
    -- Past the first instruction the roles are those of the rest.
    · have past : instr.roles.length ≤ k := by
        rw [Instruction.length_roles]
        omega
      have shift : pc + instr.length + (k - instr.length) = pc + k := by omega
      have pos := instr.length_pos
      have behind : pc + k ≠ pc := by omega
      rw [List.getElem?_append_right past, Instruction.length_roles, ih, shift, or_iff_right behind]

theorem written (h : Tiles code pc lines stop) :
    ∃ instrs : List Instruction, lines = Instruction.placed pc instrs ∧
      code.toList.drop pc = instrs.flatMap Instruction.encode ++ code.toList.drop stop := by
  induction h with
  | nil pc => exact ⟨[], rfl, rfl⟩
  | @cons pc stop instr lines decoded rest ih =>
    obtain ⟨instrs, shape, bytes⟩ := ih
    refine ⟨instr :: instrs, by rw [shape, Instruction.placed], ?_⟩
    have front := List.prefix_iff_eq_append.1 (Instruction.decode_iff.1 decoded)
    rw [Instruction.length_encode, List.drop_drop, bytes] at front
    rw [← front, List.flatMap_cons, List.append_assoc]

end Tiles

theorem onward_written (met : List (Nat × Instruction))
    (written : code.toList.drop pc = instrs.flatMap Instruction.encode) :
    onward code pc met = ⟨met.reverse ++ Instruction.placed pc instrs, none⟩ := by
  induction instrs generalizing pc met with
  | nil =>
    have past : code.size ≤ pc := by simpa using written
    rw [onward, if_neg (Nat.not_lt_of_le past), Instruction.placed, List.append_nil]
  | cons instr rest ih =>
    have decoded : Instruction.decode code pc = .ok instr := by
      rw [Instruction.decode_iff, written]
      exact List.prefix_append _ _
    have later : code.toList.drop (pc + instr.length) = rest.flatMap Instruction.encode := by
      rw [← List.drop_drop, written, List.flatMap_cons, ← Instruction.length_encode, List.drop_left]
    rw [onward, if_pos (Instruction.decode_bounds decoded).1, decoded]
    simp only [ih _ later, Instruction.placed, List.reverse_cons, List.append_assoc,
      List.singleton_append]

theorem ofCode_written (written : code.toList = instrs.flatMap Instruction.encode) :
    ofCode code = ⟨Instruction.placed 0 instrs, none⟩ :=
  onward_written [] written

theorem written_of_fault (whole : (ofCode code).fault = none) :
    ∃ instrs : List Instruction, code.toList = instrs.flatMap Instruction.encode := by
  obtain ⟨instrs, _, written⟩ := (tiles_ofCode whole).written
  rw [List.drop_zero, ← Array.length_toList, List.drop_length, List.append_nil] at written
  exact ⟨instrs, written⟩

end Sweep
end EvmObject
