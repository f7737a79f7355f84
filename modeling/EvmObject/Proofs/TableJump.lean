import EvmObject.Proofs.CallRoom
import EvmObject.Proofs.Decoding
/-!
Jumps by a table: the selector on top of the stack picks an entry, and every other selector, however great, passes
the table by. The entries counted off in the bytes of a table are those that it is read into. Main statement:
`table_jump_selects`.
-/
namespace EvmObject

variable {σ : Type} {host : Host σ} {c : Container} {running : CodeSection} {table : JumpTable}
  {limits : Limits} {ctx : Context} {s t paid : σ} {w : Word} {rest : List Word}

namespace JumpTable

def entryAt? (raw : List UInt8) (i : Nat) : Option Int16 :=
  match raw[2 * i]?, raw[2 * i + 1]? with
  | some hi, some lo => some (BigEndian.word16 hi lo).toInt16
  | _, _ => none

/-- The entry that a selector picks, which has to fit 64 bits. -/
def pick? (raw : List UInt8) (w : Word) : Option Int16 :=
  w.toUInt64?.bind fun i => entryAt? raw i.toNat

theorem entryAt?_eq (raw : List UInt8) (i : Nat) : entryAt? raw i = (pairs raw)[i]? := by
  induction raw using pairs.induct generalizing i with
  | case1 hi lo rest ih =>
    cases i with
    | zero => rfl
    | succ i => exact ih i
  | case2 raw short =>
    have one : raw.length ≤ 1 := by
      rcases raw with _ | ⟨hi, _ | ⟨lo, rest⟩⟩
      · exact Nat.zero_le 1
      · exact Nat.le_refl 1
      · exact absurd rfl (short hi lo rest)
    have none : raw[2 * i + 1]? = none := List.getElem?_eq_none (by omega)
    have empty : pairs raw = [] := by
      rw [← List.length_eq_zero_iff, length_pairs]
      omega
    rw [entryAt?, none, empty, List.getElem?_nil]
    cases raw[2 * i]? <;> rfl

theorem pick?_encode (table : JumpTable) (w : Word) : pick? table.encode w = table.offsets[w.toNat]? := by
  have few := table.length_le
  rw [pick?, Word.toUInt64?]
  by_cases fits : w.toNat < UInt64.size
  · rw [if_pos fits, Option.bind_some, UInt64.toNat_ofNat_of_lt' fits, entryAt?_eq]
    exact congrArg (·[w.toNat]?) (pairs_encode table.offsets)
  · have beyond : UInt64.size = 2 ^ 64 := rfl
    rw [if_neg fits, Option.bind_none, List.getElem?_eq_none (by omega)]

theorem bytes_of_decode {code : Array UInt8} {pc : Nat}
    (decoded : Instruction.decode code pc = .ok (.rjumpv table)) :
    (code.extract (pc + 2) (pc + 2 + 2 * table.offsets.length)).toList = table.encode := by
  have written := Instruction.decode_iff.1 decoded
  rw [Instruction.encode, cons_prefix_drop, Instruction.operands, cons_prefix_drop] at written
  have there := written.2.2
  rw [toList_extract, ← length_encode]
  exact (List.prefix_iff_eq_take.1 there).symm

end JumpTable

namespace Machine

theorem step_table (limited : ctx.Limited limits) (here : ctx.At c running (.rjumpv table))
    (top : ctx.stack.words = w :: rest) (visible : ctx.floor < ctx.stack.height)
    (charged : host.charge 4 s = (.ok (), paid)) :
    step host c ctx s = goTo running.code (ctx.pc + (Instruction.rjumpv table).length)
      table.offsets[w.toNat]? { ctx with stack := ctx.stack.drop 1 } paid := by
  have one : 1 ≤ ctx.stack.visible ctx.floor := by
    unfold DataStack.visible
    omega
  have room : ctx.stack.height - 1 + 0 ≤ ctx.stack.limit := by
    have := limited.height_le
    rw [limited.stack]
    omega
  have checked : ready c running.type (.rjumpv table) (Instruction.rjumpv table).info ctx = .ok () :=
    (ready_eq_accommodates rfl).trans (DataStack.accommodates_eq_ok.2 ⟨one, room⟩)
  have popped : ctx.stack.pop ctx.floor = .ok (w, ctx.stack.drop 1) := by
    rw [DataStack.pop, top]
    exact if_pos one
  rw [step_eq_perform here checked charged]
  simp only [perform, select, popped]

theorem land_of_line {count pc : Nat} {instr : Instruction} {offset : Int16} (legal : running.Legal count)
    (line : (pc, instr) ∈ (Sweep.ofCode running.code).lines) (among : offset ∈ instr.offsets) :
    ∃ target, land running.code (pc + instr.length) (some offset) = .ok target ∧
      (target : Int) = (pc + instr.length : Nat) + offset.toInt ∧
      target ∈ (Sweep.ofCode running.code).starts := by
  obtain ⟨target, found, start⟩ := legal.jumps _ line offset among
  obtain ⟨other, member, same⟩ := List.mem_map.1 start
  have inside := (Instruction.decode_bounds (legal.tiles.decode_of_mem member)).1
  exact ⟨target, land_eq_ok.2 ⟨found, same ▸ inside⟩, relativeTarget_eq_some.1 found, start⟩

/-- Wherever a run comes to a table jump of an accepted section, with the selector `w` on top of the visible words,
and pays for it, nothing but the selector is taken off. If it is below the number of entries, the run goes on behind
the table moved by that entry, which is one of the checked jumps to where an instruction starts; otherwise right
behind the table. The entry is the one that the selector picks from the bytes of the table, in which the entries are
counted off as they are read. -/
theorem table_jump_selects {n : Nat} (reached : advance host c n (.initial limits) s = .next ctx t)
    (found : c.sections[ctx.index]? = some running)
    (accepted : running.defect? c.sections.size ctx.index = none)
    (line : (ctx.pc, .rjumpv table) ∈ (Sweep.ofCode running.code).lines)
    (top : ctx.stack.words = w :: rest) (visible : ctx.floor < ctx.stack.height)
    (charged : host.charge 4 t = (.ok (), paid)) :
    (∃ target, step host c ctx t = .next { ctx with pc := target, stack := ctx.stack.drop 1 } paid ∧
      (∀ inside : w.toNat < table.offsets.length,
        (target : Int) = (ctx.pc + 2 + 2 * table.offsets.length : Nat) + table.offsets[w.toNat].toInt ∧
        target ∈ (Sweep.ofCode running.code).starts ∧
        Sweep.landingDefect? (Sweep.ofCode running.code).roles (ctx.pc + 2 + 2 * table.offsets.length)
          table.offsets[w.toNat] = none) ∧
      (table.offsets.length ≤ w.toNat → target = ctx.pc + 2 + 2 * table.offsets.length)) ∧
    (ctx.stack.drop 1).words = rest ∧
    JumpTable.pick? (running.code.extract (ctx.pc + 2) (ctx.pc + 2 + 2 * table.offsets.length)).toList w
      = table.offsets[w.toNat]? ∧
    ∀ (raw : List UInt8) (i : Nat), JumpTable.entryAt? raw i = (JumpTable.pairs raw)[i]? := by
  have limited : ctx.Limited limits :=
    invariant_of_advance Context.Limited.transition (.initial limits) reached
  have tiles := Sweep.tiles_reach running.code
  have decoded := tiles.decode_of_mem line
  have legal := CodeSection.legal_of_defect? accepted
  have stepped := step_table limited ⟨found, decoded⟩ top visible charged
  have length : ctx.pc + (Instruction.rjumpv table).length = ctx.pc + 2 + 2 * table.offsets.length :=
    (Nat.add_assoc ..).symm
  rw [length] at stepped
  refine ⟨?_, ?_, ?_, JumpTable.entryAt?_eq⟩
  · by_cases inside : w.toNat < table.offsets.length
    · have among : table.offsets[w.toNat] ∈ (Instruction.rjumpv table).offsets := List.getElem_mem inside
      obtain ⟨target, landed, leads, start⟩ := land_of_line legal line among
      have checked := (CodeSection.defect?_eq_none.1 accepted).2.2.2 _ line _ among
      dsimp only at checked
      rw [length] at landed leads checked
      rw [List.getElem?_eq_getElem inside, goTo, landed] at stepped
      exact ⟨target, stepped, fun _ => ⟨leads, start, checked⟩, fun past => absurd inside (Nat.not_lt_of_le past)⟩
    · have past := Nat.le_of_not_lt inside
      rw [List.getElem?_eq_none past] at stepped
      exact ⟨_, stepped, fun within => absurd within inside, fun _ => rfl⟩
  · exact congrArg (List.drop 1) top
  · rw [JumpTable.bytes_of_decode decoded, JumpTable.pick?_encode]

end Machine

/-- Two is pushed, and the table of three jumps goes on at the stop, right behind itself, or at the push again. -/
def Container.carousel : Container :=
  .assemble #[⟨⟨0, 0, 1⟩, #[0x60, 2, 0x5E, 3, 0, 1, 0, 0, 0xFF, 0xF6, 0x5B, 0x00]⟩] []

namespace Machine

/-- The carousel goes round. -/
theorem table_jump_carousel :
    ∃ target, step .basic .carousel ⟨0, 2, ⟨1024, [2], 1, rfl⟩, .initial 1024⟩ ⟨100, 3⟩
        = .next ⟨0, target, .empty 1024, .initial 1024⟩ ⟨100, 7⟩ ∧ (target : Int) = 10 + -10 := by
  have reached : advance .basic .carousel 1 (.initial .default) (.full 100)
      = .next ⟨0, 2, ⟨1024, [2], 1, rfl⟩, .initial 1024⟩ ⟨100, 3⟩ := by decide +kernel
  have accepted : CodeSection.defect? 1 0
      ⟨⟨0, 0, 1⟩, #[0x60, 2, 0x5E, 3, 0, 1, 0, 0, 0xFF, 0xF6, 0x5B, 0x00]⟩ = none := by decide +kernel
  have line : (2, .rjumpv ⟨[1, 0, -10], by decide⟩) ∈
      (Sweep.ofCode #[0x60, 2, 0x5E, 3, 0, 1, 0, 0, 0xFF, 0xF6, 0x5B, 0x00]).lines := by decide +kernel
  obtain ⟨⟨target, stepped, selected, _⟩, _⟩ :=
    table_jump_selects reached rfl accepted line rfl (by decide) rfl
  exact ⟨target, stepped, (selected (by decide)).1⟩

end Machine
end EvmObject
