import EvmObject.Proofs.SweepOrder
/-!
Sections judged against the whole table of types, in one pass over their bytes and in any order. A pass notes the
jumps it meets and judges them when it knows the roles of all bytes; of the table it reads no more than its own entry
and the number of the entries (`Inspection.defect?_eq`), so that the verdict on a section is the same in any container
that has it at the same index among as many. The verdicts are kept in slots and read in the order of the sections.
Main statement: in whatever order the sections are judged, the one told is that of the first bad section
(`judgements_agree`).
-/
namespace EvmObject

/-- A jump that a pass met at `place`. Its target need not be an offset of the code. -/
structure PendingJump where
  place : Nat
  target : Int
deriving DecidableEq, Repr

/-- What a pass knows: the roles of the bytes behind it, and the jumps there, in order. -/
structure Inspection where
  roles : Array ByteRole
  jumps : List PendingJump

def PendingJump.defect? (roles : Array ByteRole) (jump : PendingJump) : Option (Nat × Defect) :=
  if jump.target < 0 then some (jump.place, .jumpOutOfBounds jump.target roles.size)
  else
    match roles[jump.target.toNat]? with
    | none => some (jump.place, .jumpOutOfBounds jump.target roles.size)
    | some .opcode => none
    | some .operand => some (jump.place, .jumpIntoOperand jump.target.toNat)
    | some .callOperand => some (jump.place, .jumpIntoCallOperand jump.target.toNat)

def Instruction.pendingJumps (pc : Nat) (instr : Instruction) : List PendingJump :=
  instr.offsets.map fun offset => ⟨pc, (pc + instr.length : Nat) + offset.toInt⟩

namespace Inspection

def start : Inspection := ⟨#[], []⟩

def note (seen : Inspection) (pc : Nat) (instr : Instruction) : Inspection where
  roles := seen.roles ++ instr.roles
  jumps := seen.jumps ++ instr.pendingJumps pc

/-- Passes over the code from `pc` on, up to the first thing wrong with an instruction. -/
def pass (types : Array CodeType) (code : Array UInt8) (pc : Nat) (seen : Inspection) :
    Except (Nat × Defect) Inspection :=
  if pc < code.size then
    match Instruction.decode code pc with
    | .error e => .error (pc, .ofDecodeError e)
    | .ok instr =>
      match instr.operandDefect? types.size with
      | some d => .error (pc, d)
      | none => pass types code (pc + instr.length) (seen.note pc instr)
  else .ok seen
termination_by code.size - pc
decreasing_by
  have := instr.length_pos
  omega

def defect? (types : Array CodeType) (index : Fin types.size) (code : Array UInt8) : Option (Nat × Defect) :=
  match types[index].defect? index with
  | some d => some (0, d)
  | none =>
    match pass types code 0 start with
    | .error e => some e
    | .ok seen => seen.jumps.findSome? (PendingJump.defect? seen.roles)

end Inspection

namespace Container

def types (c : Container) : Array CodeType := c.sections.map CodeSection.type

theorem size_types (c : Container) : c.types.size = c.sections.size := Array.size_map

def judge (c : Container) (i : Fin c.sections.size) : Except SectionError Unit :=
  (Inspection.defect? c.types (i.cast c.size_types.symm) c.sections[i].code).elim (.ok ())
    fun found => .error ⟨i, found.1, found.2⟩

def fill (c : Container) (slots : Vector (Option (Except SectionError Unit)) c.sections.size)
    (i : Fin c.sections.size) : Vector (Option (Except SectionError Unit)) c.sections.size :=
  slots.set i (some (c.judge i))

def judgeAll (c : Container) (order : List (Fin c.sections.size)) :
    Vector (Option (Except SectionError Unit)) c.sections.size :=
  order.foldl c.fill (Vector.replicate _ none)

def firstError : List (Except SectionError Unit) → Except SectionError Unit
  | [] => .ok ()
  | .ok () :: rest => firstError rest
  | .error e :: _ => .error e

/-- The judgement of the whole when all slots are filled. -/
def collect {count : Nat} (slots : Vector (Option (Except SectionError Unit)) count) :
    Option (Except SectionError Unit) :=
  (slots.toList.mapM id).map firstError

end Container

variable {types : Array CodeType} {code : Array UInt8} {pc stop : Nat} {lines : List (Nat × Instruction)}

theorem PendingJump.defect?_eq (roles : Array ByteRole) (place next : Nat) (offset : Int16) :
    PendingJump.defect? roles ⟨place, next + offset.toInt⟩ =
      (Sweep.landingDefect? roles next offset).map fun d => (place, d) := by
  unfold defect? Sweep.landingDefect? relativeTarget
  by_cases before : (next : Int) + offset.toInt < 0
  · simp [before]
  · simp only [before, if_false]
    cases roles[((next : Int) + offset.toInt).toNat]? with
    | none => rfl
    | some role => cases role <;> rfl

theorem Instruction.findSome?_pendingJumps (roles : Array ByteRole) (pc : Nat) (instr : Instruction) :
    (instr.pendingJumps pc).findSome? (PendingJump.defect? roles) =
      (instr.offsets.findSome? (Sweep.landingDefect? roles (pc + instr.length))).map fun d => (pc, d) := by
  rw [pendingJumps, List.findSome?_map, List.map_findSome?]
  congr 1
  funext offset
  exact PendingJump.defect?_eq roles pc (pc + instr.length) offset

theorem findSome?_flatMap {α β γ : Type} (xs : List α) (lists : α → List β) (find : β → Option γ) :
    (xs.flatMap lists).findSome? find = xs.findSome? fun x => (lists x).findSome? find := by
  induction xs with
  | nil => rfl
  | cons x xs ih =>
    rw [List.flatMap_cons, List.findSome?_append, List.findSome?_cons, ih]
    cases (lists x).findSome? find <;> rfl

namespace Inspection

def noteAll (seen : Inspection) (lines : List (Nat × Instruction)) : Inspection :=
  lines.foldl (fun seen line => seen.note line.1 line.2) seen

theorem roles_noteAll (seen : Inspection) (lines : List (Nat × Instruction)) :
    (seen.noteAll lines).roles.toList = seen.roles.toList ++ lines.flatMap fun line => line.2.roles := by
  induction lines generalizing seen with
  | nil => simp [noteAll]
  | cons line rest ih =>
    rw [noteAll, List.foldl_cons, ← noteAll, ih, note, Array.toList_appendList, List.flatMap_cons, List.append_assoc]

theorem jumps_noteAll (seen : Inspection) (lines : List (Nat × Instruction)) :
    (seen.noteAll lines).jumps = seen.jumps ++ lines.flatMap fun line => line.2.pendingJumps line.1 := by
  induction lines generalizing seen with
  | nil => simp [noteAll]
  | cons line rest ih =>
    rw [noteAll, List.foldl_cons, ← noteAll, ih, note, List.flatMap_cons, List.append_assoc]

theorem findSome?_jumps (code : Array UInt8) :
    (start.noteAll (Sweep.ofCode code).lines).jumps.findSome?
        (PendingJump.defect? (start.noteAll (Sweep.ofCode code).lines).roles) =
      (Sweep.ofCode code).jumpDefect? := by
  have roles : (start.noteAll (Sweep.ofCode code).lines).roles = (Sweep.ofCode code).roles :=
    Array.toList_inj.1 (roles_noteAll start _)
  have jumps : (start.noteAll (Sweep.ofCode code).lines).jumps =
      (Sweep.ofCode code).lines.flatMap fun line => line.2.pendingJumps line.1 := jumps_noteAll start _
  rw [roles, jumps, findSome?_flatMap]
  simp only [Instruction.findSome?_pendingJumps, Sweep.jumpDefect?]

/-- A pass over lines that lie end to end stops at the first with bad operands, or else goes on behind them. -/
theorem pass_tiles (tiles : Sweep.Tiles code pc lines stop) (seen : Inspection) :
    pass types code pc seen =
      (lines.findSome? fun line => (line.2.operandDefect? types.size).map fun d => (line.1, d)).elim
        (pass types code stop (seen.noteAll lines)) .error := by
  induction tiles generalizing seen with
  | nil => rfl
  | @cons pc stop instr lines decoded rest ih =>
    rw [pass, if_pos (Instruction.decode_bounds decoded).1, decoded, List.findSome?_cons]
    dsimp only
    cases instr.operandDefect? types.size with
    | none => exact ih (seen.note pc instr)
    | some d => rfl

theorem pass_reach (seen : Inspection) :
    pass types code ((Sweep.ofCode code).reach code.size) seen =
      (Sweep.ofCode code).faultDefect?.elim (.ok seen) .error := by
  unfold Sweep.reach Sweep.faultDefect?
  cases fault : (Sweep.ofCode code).fault with
  | none => rw [pass, if_neg (Nat.lt_irrefl _)]; rfl
  | some f =>
    obtain ⟨inside, failed⟩ := Sweep.decode_of_fault fault
    rw [pass, if_pos inside, failed]
    rfl

theorem pass_start (types : Array CodeType) (code : Array UInt8) :
    pass types code 0 start =
      (((Sweep.ofCode code).operandDefect? types.size).or (Sweep.ofCode code).faultDefect?).elim
        (.ok (start.noteAll (Sweep.ofCode code).lines)) .error := by
  rw [pass_tiles (Sweep.tiles_reach code), pass_reach, Sweep.operandDefect?]
  cases (Sweep.ofCode code).lines.findSome? fun line =>
    (line.2.operandDefect? types.size).map fun d => (line.1, d) <;> rfl

theorem phases (count index : Nat) (s : CodeSection) : s.defect? count index =
    ((s.type.defect? index).map fun d => (0, d)).or
      ((((Sweep.ofCode s.code).operandDefect? count).or (Sweep.ofCode s.code).faultDefect?).or
        (Sweep.ofCode s.code).jumpDefect?) := by
  simp only [CodeSection.defect?, Option.orElse_eq_orElse, Option.orElse_eq_or, Option.or_assoc]

theorem defect?_eq (types : Array CodeType) (index : Fin types.size) (code : Array UInt8) :
    defect? types index code = CodeSection.defect? types.size index ⟨types[index], code⟩ := by
  rw [phases, defect?, pass_start, ← findSome?_jumps]
  cases types[index].defect? index with
  | some d => rfl
  | none =>
    cases ((Sweep.ofCode code).operandDefect? types.size).or (Sweep.ofCode code).faultDefect? <;> rfl

end Inspection

/-- The verdict on a section at `index` among `count`, as that of its place in a container. -/
def CodeSection.verdict (count index : Nat) (s : CodeSection) : Except SectionError Unit :=
  (s.defect? count index).elim (.ok ()) fun found => .error ⟨index, found.1, found.2⟩

namespace Container

variable {c : Container}

theorem judge_eq (c : Container) (i : Fin c.sections.size) :
    c.judge i = c.sections[i].verdict c.sections.size i := by
  have entry : c.types[i.cast c.size_types.symm] = c.sections[i].type := Array.getElem_map ..
  have alone : Inspection.defect? c.types (i.cast c.size_types.symm) c.sections[i].code =
      c.sections[i].defect? c.sections.size i := by
    rw [Inspection.defect?_eq, entry]
    exact congrArg (fun count => c.sections[i].defect? count i) c.size_types
  rw [judge, alone, CodeSection.verdict]

theorem judge_congr {d : Container} {i : Fin c.sections.size} {j : Fin d.sections.size}
    (count : d.sections.size = c.sections.size) (index : (j : Nat) = i) (same : d.sections[j] = c.sections[i]) :
    d.judge j = c.judge i := by
  rw [judge_eq, judge_eq, same, index, count]

theorem getElem_fill {slots : Vector (Option (Except SectionError Unit)) c.sections.size}
    {i j : Fin c.sections.size} (known : slots[i] = some (c.judge i) ∨ i = j) :
    (c.fill slots j)[i] = some (c.judge i) := by
  by_cases same : i = j
  · subst same
    exact Vector.getElem_set_self ..
  · have other : (j : Nat) ≠ i := fun equal => same (Fin.ext equal.symm)
    exact (Vector.getElem_set_ne _ _ other).trans (known.resolve_right same)

/-- However often and when a section is judged, its slot holds the verdict on it in the end. -/
theorem getElem_foldl_fill {slots : Vector (Option (Except SectionError Unit)) c.sections.size}
    {order : List (Fin c.sections.size)} {i : Fin c.sections.size}
    (known : slots[i] = some (c.judge i) ∨ i ∈ order) : (order.foldl c.fill slots)[i] = some (c.judge i) := by
  induction order generalizing slots with
  | nil => exact known.resolve_right List.not_mem_nil
  | cons j rest ih =>
    apply ih
    rw [List.mem_cons, ← or_assoc] at known
    exact known.imp_left getElem_fill

theorem getElem_judgeAll {order : List (Fin c.sections.size)} {i : Fin c.sections.size} (judged : i ∈ order) :
    (c.judgeAll order)[i] = some (c.judge i) :=
  getElem_foldl_fill (.inr judged)

theorem mapM_some {α : Type} (xs : List α) : (xs.map some).mapM id = some xs := by
  induction xs with
  | nil => rfl
  | cons x xs ih => simp [ih]

theorem collect_judgeAll (order : List (Fin c.sections.size)) (covers : ∀ i, i ∈ order) :
    collect (c.judgeAll order) = some (firstError (List.ofFn c.judge)) := by
  have filled : (c.judgeAll order).toList = (List.ofFn c.judge).map some := by
    rw [List.map_ofFn]
    apply List.ext_getElem (by simp)
    intro i low high
    simpa using getElem_judgeAll (covers ⟨i, by simpa using high⟩)
  rw [collect, filled, mapM_some]
  rfl

theorem firstError_eq_ok {count : Nat} {verdicts : Fin count → Except SectionError Unit} :
    firstError (List.ofFn verdicts) = .ok () ↔ ∀ i, verdicts i = .ok () := by
  induction count with
  | zero => simp [firstError]
  | succ count ih =>
    rw [List.ofFn_succ, Fin.forall_fin_succ, ← ih]
    cases verdicts 0 with
    | error e => simp [firstError]
    | ok => simp [firstError]

theorem firstError_eq_error {count : Nat} {verdicts : Fin count → Except SectionError Unit} {e : SectionError} :
    firstError (List.ofFn verdicts) = .error e ↔ ∃ i, verdicts i = .error e ∧ ∀ j < i, verdicts j = .ok () := by
  induction count with
  | zero => simp [firstError]
  | succ count ih =>
    rw [List.ofFn_succ, Fin.exists_fin_succ]
    simp only [Fin.forall_fin_succ, Fin.not_lt_zero, Fin.succ_pos, Fin.succ_lt_succ_iff, false_implies, implies_true,
      and_true, true_implies]
    cases first : verdicts 0 with
    | error other => simp [firstError]
    | ok => simp [firstError, ih]

theorem defectFrom?_eq (count index : Nat) (sections : List CodeSection) :
    (defectFrom? count index sections).elim (.ok ()) .error =
      firstError (sections.mapIdx fun k s => s.verdict count (index + k)) := by
  induction sections generalizing index with
  | nil => rfl
  | cons s rest ih =>
    have behind : (fun k (s : CodeSection) => s.verdict count (index + (k + 1))) =
        fun k s => s.verdict count (index + 1 + k) := by
      funext k s
      rw [Nat.add_right_comm, Nat.add_assoc]
    rw [List.mapIdx_cons, behind, Nat.add_zero, CodeSection.verdict, defectFrom?]
    cases s.defect? count index with
    | none => exact ih (index + 1)
    | some found => rfl

theorem validate_eq (c : Container) : c.validate = firstError (List.ofFn c.judge) := by
  have verdicts : List.ofFn c.judge = c.sections.toList.mapIdx fun k s => s.verdict c.sections.size (0 + k) := by
    apply List.ext_getElem (by simp)
    intro i low high
    simp [judge_eq]
  rw [verdicts, ← defectFrom?_eq, validate]
  cases defectFrom? c.sections.size 0 c.sections.toList <;> rfl

theorem index_of_judge {i : Fin c.sections.size} {e : SectionError} (refused : c.judge i = .error e) :
    e.index = i := by
  rw [judge_eq, CodeSection.verdict] at refused
  cases wrong : c.sections[i].defect? c.sections.size i with
  | none =>
    rw [wrong] at refused
    cases refused
  | some found =>
    rw [wrong] at refused
    cases refused
    rfl

/-- Whatever the order in which all sections are judged, the container is legal just if each section is, and otherwise
the error told is that of the first bad one. Of two containers with as many sections, those that have the same section
at some index have the same verdict on it, also if they are judged in other orders. -/
theorem judgements_agree (c : Container) (order : List (Fin c.sections.size)) (covers : ∀ i, i ∈ order) :
    collect (c.judgeAll order) = some c.validate ∧
      (c.validate = .ok () ↔ ∀ i, c.judge i = .ok ()) ∧
      (∀ e, c.validate = .error e ↔
        ∃ i : Fin c.sections.size, e.index = i ∧ c.judge i = .error e ∧ ∀ j < i, c.judge j = .ok ()) ∧
      (∀ i : Fin c.sections.size, (c.judgeAll order)[i] = some (c.judge i)) ∧
      ∀ d : Container, d.sections.size = c.sections.size →
        ∀ (i : Fin c.sections.size) (j : Fin d.sections.size), (j : Nat) = i → d.sections[j] = c.sections[i] →
          d.judge j = c.judge i ∧ ∀ other : List (Fin d.sections.size), (∀ j, j ∈ other) →
            (d.judgeAll other)[j] = (c.judgeAll order)[i] := by
  refine ⟨?_, ?_, ?_, fun i => getElem_judgeAll (covers i), ?_⟩
  · rw [collect_judgeAll order covers, validate_eq]
  · rw [validate_eq, firstError_eq_ok]
  · intro e
    rw [validate_eq, firstError_eq_error]
    exact exists_congr fun i => ⟨fun h => ⟨index_of_judge h.1, h⟩, fun h => h.2⟩
  · intro d count i j index same
    have equal := judge_congr count index same
    refine ⟨equal, fun other covers' => ?_⟩
    rw [getElem_judgeAll (covers i), getElem_judgeAll (covers' j), equal]

/-- The second section has no instruction at its byte 1, and the third takes too much. -/
def slipshod : Container := .assemble #[⟨⟨0, 0, 0⟩, #[0x00]⟩, ⟨⟨0, 0, 0⟩, #[0x5B, 0x56]⟩, ⟨⟨200, 0, 0⟩, #[0x00]⟩] []

/-- Another container with this second section, and a first one that is bad too. -/
def hasty : Container := .assemble #[⟨⟨1, 0, 0⟩, #[0x5F]⟩, ⟨⟨0, 0, 0⟩, #[0x5B, 0x56]⟩, ⟨⟨0, 0, 0⟩, #[0x00]⟩] [7]

/-- Judged from its last section on, the container is refused for its second, and in the other one that has the same
verdict. -/
theorem judgements_agree_slipshod :
    (∀ i, i ∈ (List.finRange slipshod.sections.size).reverse) ∧
      collect (slipshod.judgeAll (List.finRange _).reverse) = some (.error ⟨1, 1, .undefinedOpcode 0x56⟩) ∧
      (hasty.judgeAll (List.finRange _))[(1 : Fin 3)] = some (.error ⟨1, 1, .undefinedOpcode 0x56⟩) := by
  have covers : ∀ i, i ∈ (List.finRange slipshod.sections.size).reverse := by simp
  obtain ⟨told, _, first, filled, alike⟩ := judgements_agree slipshod (List.finRange _).reverse covers
  have good : ∀ j < (⟨1, by decide⟩ : Fin slipshod.sections.size), slipshod.judge j = .ok () := by decide +kernel
  have bad : slipshod.judge ⟨1, by decide⟩ = .error ⟨1, 1, .undefinedOpcode 0x56⟩ := by decide +kernel
  obtain ⟨_, same⟩ := alike hasty rfl ⟨1, by decide⟩ ⟨1, by decide⟩ rfl rfl
  rw [(first _).2 ⟨⟨1, by decide⟩, rfl, bad, good⟩] at told
  rw [filled, bad] at same
  exact ⟨covers, told, same (List.finRange _) List.mem_finRange⟩

end Container
end EvmObject
