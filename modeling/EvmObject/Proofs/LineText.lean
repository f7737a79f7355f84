import EvmObject.Disassembly
import EvmObject.Proofs.Encoding
import EvmObject.Text.Numeral.Lemmas
/-!
What a line of a listing tells. Main statements: a line of code begins with its section and its offset
(`Line.StandsAt.text_eq`), different lines have different texts (`Line.text_inj`), and none holds the newline
that closes it (`Line.newline_not_mem_text`).
-/
namespace EvmObject

namespace Opcode

theorem info_name_inj {a b : Opcode} (h : a.info.name = b.info.name) : a = b := by
  have each : ∀ op ∈ all, (all.find? fun o => o.info.name == op.info.name) = some op := by
    decide +kernel
  have found := each a a.mem_all
  rw [h, each b b.mem_all] at found
  exact (Option.some.inj found).symm

theorem not_mem_name (op : Opcode) {c : Char} (h : c.isAlphanum = false) : c ∉ op.info.name.toList := by
  have each : ∀ op ∈ all, op.info.name.toList.all Char.isAlphanum = true := by
    decide +kernel
  intro among
  have plain := List.all_eq_true.1 (each op op.mem_all) c among
  simp [h] at plain

end Opcode

namespace Instruction

variable {a b : Instruction} {next : Nat} {r s : List Char}

/-- Two instructions of one opcode, by what their operands may differ in. -/
inductive SameForm : Instruction → Instruction → Prop
  | push (a b : PushData) : SameForm (stack (.push a)) (stack (.push b))
  | rjump (a b : Int16) : SameForm (rjump a) (rjump b)
  | rjumpi (a b : Int16) : SameForm (rjumpi a) (rjumpi b)
  | rjumpv (a b : JumpTable) : SameForm (rjumpv a) (rjumpv b)
  | callf (a b : UInt16) : SameForm (callf a) (callf b)
  | equal (a : Instruction) : SameForm a a

theorem sameForm (h : a.opcode = b.opcode) : SameForm a b := by
  -- Reading the operands of `b` back by the opcode of `a` shows which constructor `b` has.
  have written : readOperands? b.operands.toArray 0 a.opcode = some b := by
    rw [h, readOperands?_iff (Nat.zero_le _)]
    exact ⟨rfl, List.prefix_refl _⟩
  obtain ⟨code, read⟩ : ∃ code, readOperands? code 0 a.opcode = some b := ⟨_, written⟩
  cases a with
  | stack op =>
    cases op with
    | push data =>
      simp only [opcode, StackOp.opcode, readOperands?] at read
      split at read
      · cases read
        exact .push _ _
      · cases read
    | _ =>
      cases read
      exact .equal _
  | rjump offset =>
    obtain ⟨w, _, rfl⟩ := Option.map_eq_some_iff.1 read
    exact .rjump _ _
  | rjumpi offset =>
    obtain ⟨w, _, rfl⟩ := Option.map_eq_some_iff.1 read
    exact .rjumpi _ _
  | callf target =>
    obtain ⟨w, _, rfl⟩ := Option.map_eq_some_iff.1 read
    exact .callf _ _
  | rjumpv table =>
    simp only [opcode, readOperands?] at read
    split at read
    · split at read
      · cases read
        exact .rjumpv _ _
      · cases read
    · cases read
  | _ =>
    cases read
    exact .equal _

theorem jumpText_append_inj {o q : Int16} (h : jumpText next o ++ r = jumpText next q ++ s) :
    o = q ∧ r = s := by
  have fields := h
  simp only [jumpText, List.cons_append, List.append_assoc, List.cons.injEq, true_and] at fields
  obtain ⟨number, _⟩ := Numeral.signed_append_inj fields
  obtain rfl := Int16.toInt_inj.1 number
  exact ⟨rfl, List.append_cancel_left h⟩

theorem jumpText_inj {o q : Int16} (h : jumpText next o = jumpText next q) : o = q := by
  have fields : jumpText next o ++ [] = jumpText next q ++ [] := by rw [h]
  exact (jumpText_append_inj fields).1

theorem stops_jumpTexts (os : List Int16) : Stops Numeral.isDigit (os.flatMap (jumpText next)) := by
  cases os with
  | nil => exact stops_nil
  | cons o os => exact stops_cons rfl

theorem operandText_inj {pc : Nat} (same : a.opcode = b.opcode)
    (h : a.operandText (pc + a.length) = b.operandText (pc + b.length)) : a = b := by
  cases sameForm same with
  | push x y =>
    obtain ⟨xs, hx⟩ := x
    obtain ⟨ys, hy⟩ := y
    -- A push of no bytes shows nothing, all others something.
    simp only [operandText] at h
    split at h <;> split at h
    · simp_all
    · cases h
    · cases h
    · obtain rfl := Numeral.bytes_inj (List.append_cancel_left h)
      rfl
  | rjump o q => rw [jumpText_inj h]
  | rjumpi o q => rw [jumpText_inj h]
  | rjumpv x y =>
    obtain ⟨os, hos⟩ := x
    obtain ⟨qs, hqs⟩ := y
    obtain ⟨count, rest⟩ :=
      Numeral.decimal_append_inj (stops_jumpTexts os) (stops_jumpTexts qs) (List.cons.inj h).2
    -- With as many entries both tables end at the same offset, from which all targets are counted.
    simp only [length, count] at rest
    obtain rfl := flatMap_inj jumpText_append_inj (fun _ => List.cons_ne_nil _ _) rest
    rfl
  | callf x y => rw [UInt16.toNat_inj.1 (Numeral.decimal_inj (List.cons.inj h).2)]
  | equal => rfl

theorem stops_operandText (instr : Instruction) : Stops (· != ' ') (instr.operandText next) := by
  cases instr with
  | stack op =>
    cases op with
    | push data =>
      simp only [operandText]
      split
      · exact stops_nil
      · exact stops_cons rfl
    | _ => exact stops_nil
  | rjump | rjumpi | rjumpv | callf => exact stops_cons rfl
  | _ => exact stops_nil

variable {d : Char}

theorem not_mem_jumpText (h : d = '\n' ∨ d = '.') (offset : Int16) : d ∉ jumpText next offset := by
  have number : d ∉ Numeral.signed offset.toInt := by
    obtain rfl | rfl := h <;> exact Numeral.not_mem_signed (by decide) (by decide) rfl
  have target (n : Nat) : d ∉ Numeral.hex 4 n := by
    obtain rfl | rfl := h <;> exact Numeral.not_mem_hex rfl
  unfold jumpText
  obtain rfl | rfl := h <;> split <;> simp [number, target]

theorem not_mem_operandText (h : d = '\n' ∨ d = '.') (instr : Instruction) :
    d ∉ instr.operandText next := by
  have blank : d ≠ ' ' := by obtain rfl | rfl := h <;> decide
  have digit : Numeral.isDigit d = false := by obtain rfl | rfl := h <;> rfl
  have number (n : Nat) : d ∉ Numeral.decimal n := Numeral.not_mem_decimal digit
  cases instr with
  | stack op =>
    cases op with
    | push data =>
      have bytes : d ∉ Numeral.bytes data.bytes := Numeral.not_mem_bytes digit
      simp only [operandText]
      split
      · exact List.not_mem_nil
      · obtain rfl | rfl := h <;> simp [bytes]
    | _ => exact List.not_mem_nil
  | rjump offset | rjumpi offset => exact not_mem_jumpText h offset
  | rjumpv table => simp [operandText, blank, number, not_mem_jumpText h]
  | callf target => simp [operandText, blank, number]
  | _ => exact List.not_mem_nil

end Instruction

namespace Line

variable {i j o q index pc : Nat} {t u : CodeType} {r s : List Char} {line : Line}

def offset : Line → Nat
  | instruction _ offset _ | byte _ offset _ => offset
  | heading .. | data _ => 0

/-- What a line of code shows behind its place: a name with operands, or a byte. -/
def shown : Line → List Char
  | instruction _ offset instr => instr.info.name.toList ++ instr.operandText (offset + instr.length)
  | byte _ _ b => ".byte 0x".toList ++ Numeral.byte b
  | heading .. | data _ => []

/-- A line of the section at `index` for what is there at `pc`. -/
def StandsAt (line : Line) (index pc : Nat) : Prop :=
  (∃ instr, line = instruction index pc instr) ∨ ∃ b, line = byte index pc b

-- Unfolding `text` in a proof looks into the literal texts, which takes long.

theorem text_heading (i : Nat) (t : CodeType) : (heading i t).text =
    "section ".toList ++ Numeral.decimal i ++ " (inputs ".toList ++ Numeral.decimal t.inputs.toNat
    ++ ", outputs ".toList ++ Numeral.decimal t.outputs.toNat
    ++ ", max_stack_height ".toList ++ Numeral.decimal t.maxStackHeight.toNat ++ [')'] := rfl

theorem text_instruction (i o : Nat) (instr : Instruction) : (instruction i o instr).text =
    place i o ++ (instr.info.name.toList ++ instr.operandText (o + instr.length)) :=
  List.append_assoc _ _ _

theorem shown_instruction (i o : Nat) (instr : Instruction) : (instruction i o instr).shown =
    instr.info.name.toList ++ instr.operandText (o + instr.length) := rfl

theorem text_byte (i o : Nat) (b : UInt8) : (byte i o b).text =
    place i o ++ (".byte 0x".toList ++ Numeral.byte b) :=
  List.append_assoc _ _ _

theorem text_data (length : Nat) : (data length).text =
    "data: ".toList ++ Numeral.decimal length ++ " bytes".toList := rfl

theorem StandsAt.text_eq (h : line.StandsAt index pc) : line.text =
    Numeral.decimal index ++ ':' :: Numeral.hex 4 pc ++ ' ' :: ' ' :: line.shown := by
  have written : place index pc = Numeral.decimal index ++ ':' :: Numeral.hex 4 pc ++ [' ', ' '] := rfl
  obtain ⟨instr, rfl⟩ | ⟨b, rfl⟩ := h
  · rw [text_instruction, written, List.append_assoc]
    rfl
  · rw [text_byte, written, List.append_assoc]
    rfl

theorem place_append_inj (h : place i o ++ r = place j q ++ s) : i = j ∧ o = q ∧ r = s := by
  simp only [place, String.reduceToList, List.append_assoc, List.cons_append, List.nil_append] at h
  obtain ⟨rfl, tail⟩ := Numeral.decimal_append_inj (stops_cons rfl) (stops_cons rfl) h
  obtain ⟨rfl, rest⟩ := Numeral.hex_append_inj (stops_cons rfl) (stops_cons rfl) (List.cons.inj tail).2
  simp only [List.cons.injEq, true_and] at rest
  exact ⟨rfl, rfl, rest⟩

theorem place_append_ne {c : Char} (h : c.isDigit = false) : place i o ++ r ≠ c :: s := by
  obtain ⟨d, digits, written⟩ := List.exists_cons_of_ne_nil (Nat.toDigits_ne_nil : Nat.toDigits 10 i ≠ [])
  have first : d ∈ Nat.toDigits 10 i := written ▸ List.mem_cons_self
  have digit := Nat.isDigit_of_mem_toDigits (by decide) (by decide) first
  intro same
  rw [place, Numeral.decimal, written] at same
  obtain rfl : d = c := (List.cons.inj same).1
  simp [digit] at h

theorem name_append_inj {a b : Opcode} (hr : Stops (· != ' ') r) (hs : Stops (· != ' ') s)
    (h : a.info.name.toList ++ r = b.info.name.toList ++ s) : a = b ∧ r = s := by
  obtain ⟨name, rest⟩ :=
    stretch_inj_of_not_mem (a.not_mem_name rfl) (b.not_mem_name rfl) hr hs h
  exact ⟨Opcode.info_name_inj (String.toList_inj.1 name), rest⟩

theorem name_append_ne {op : Opcode} (hr : Stops (· != ' ') r) :
    op.info.name.toList ++ r ≠ ".byte 0x".toList ++ s := by
  intro h
  simp only [String.reduceToList, List.cons_append, List.nil_append] at h
  obtain ⟨name, _⟩ := stretch_inj_of_not_mem (v := ['.', 'b', 'y', 't', 'e']) (op.not_mem_name rfl)
    (by decide) hr (stops_cons rfl) h
  exact op.not_mem_name (c := '.') rfl (name ▸ List.mem_cons_self)

theorem heading_inj (h : (heading i t).text = (heading j u).text) : heading i t = heading j u := by
  simp only [text_heading, String.reduceToList, List.append_assoc, List.cons_append, List.nil_append,
    List.cons.injEq, true_and] at h
  obtain ⟨index, h⟩ := Numeral.decimal_append_inj (stops_cons rfl) (stops_cons rfl) h
  simp only [List.cons.injEq, true_and] at h
  obtain ⟨inputs, h⟩ := Numeral.decimal_append_inj (stops_cons rfl) (stops_cons rfl) h
  simp only [List.cons.injEq, true_and] at h
  obtain ⟨outputs, h⟩ := Numeral.decimal_append_inj (stops_cons rfl) (stops_cons rfl) h
  simp only [List.cons.injEq, true_and] at h
  obtain ⟨height, _⟩ := Numeral.decimal_append_inj (stops_cons rfl) (stops_cons rfl) h
  cases t
  cases u
  simp only [heading.injEq, CodeType.mk.injEq]
  exact ⟨index, UInt8.toNat_inj.1 inputs, UInt8.toNat_inj.1 outputs, UInt16.toNat_inj.1 height⟩

theorem data_inj {m n : Nat} (h : (data m).text = (data n).text) : m = n := by
  simp only [text_data, String.reduceToList, List.cons_append, List.nil_append, List.cons.injEq,
    true_and] at h
  exact (Numeral.decimal_append_inj (stops_cons rfl) (stops_cons rfl) h).1

def isCode : Line → Bool
  | instruction .. | byte .. => true
  | heading .. | data _ => false

theorem exists_text_heading (i : Nat) (t : CodeType) : ∃ r, (heading i t).text = 's' :: r := by
  simp only [text_heading, String.reduceToList, List.append_assoc, List.cons_append]
  exact ⟨_, rfl⟩

theorem exists_text_data (length : Nat) : ∃ r, (data length).text = 'd' :: r := by
  simp only [text_data, String.reduceToList, List.cons_append]
  exact ⟨_, rfl⟩

theorem text_heading_ne (i : Nat) (t : CodeType) (length : Nat) :
    (heading i t).text ≠ (data length).text := by
  obtain ⟨_, start⟩ := exists_text_heading i t
  obtain ⟨_, other⟩ := exists_text_data length
  rw [start, other]
  nofun

/-- The first character tells the lines of a section from the others. -/
theorem isCode_eq_false {line : Line} :
    line.isCode = false ↔ ∃ c r, c.isDigit = false ∧ line.text = c :: r := by
  cases line with
  | heading i t =>
    obtain ⟨r, start⟩ := exists_text_heading i t
    exact iff_of_true rfl ⟨'s', r, rfl, start⟩
  | data length =>
    obtain ⟨r, start⟩ := exists_text_data length
    exact iff_of_true rfl ⟨'d', r, rfl, start⟩
  | instruction i o instr =>
    refine iff_of_false nofun ?_
    rintro ⟨c, r, other, start⟩
    rw [text_instruction] at start
    exact place_append_ne other start
  | byte i o b =>
    refine iff_of_false nofun ?_
    rintro ⟨c, r, other, start⟩
    rw [text_byte] at start
    exact place_append_ne other start

theorem text_inj {a b : Line} (h : a.text = b.text) : a = b := by
  have kinds : a.isCode = false ↔ b.isCode = false := by rw [isCode_eq_false, isCode_eq_false, h]
  cases a with
  | heading i t =>
    cases b with
    | heading j u => exact heading_inj h
    | data length => exact absurd h (text_heading_ne i t length)
    | instruction | byte => nomatch kinds.1 rfl
  | data length =>
    cases b with
    | data other => rw [data_inj h]
    | heading j u => exact absurd h.symm (text_heading_ne j u length)
    | instruction | byte => nomatch kinds.1 rfl
  | instruction i o x =>
    cases b with
    | instruction j q y =>
      rw [text_instruction, text_instruction] at h
      obtain ⟨rfl, rfl, rest⟩ := place_append_inj h
      obtain ⟨opcode, operands⟩ := name_append_inj x.stops_operandText y.stops_operandText rest
      rw [Instruction.operandText_inj opcode operands]
    | byte j q y =>
      rw [text_instruction, text_byte] at h
      exact absurd (place_append_inj h).2.2 (name_append_ne x.stops_operandText)
    | heading | data => nomatch kinds.2 rfl
  | byte i o x =>
    cases b with
    | byte j q y =>
      rw [text_byte, text_byte] at h
      obtain ⟨rfl, rfl, rest⟩ := place_append_inj h
      rw [Numeral.byte_inj (List.append_cancel_left rest)]
    | instruction j q y =>
      rw [text_byte, text_instruction] at h
      exact absurd (place_append_inj h).2.2.symm (name_append_ne y.stops_operandText)
    | heading | data => nomatch kinds.2 rfl

theorem not_mem_text {d : Char} (h : d = '\n' ∨ d = '.') (plain : ∀ i o b, line ≠ byte i o b) :
    d ∉ line.text := by
  have digit : Numeral.isDigit d = false := by obtain rfl | rfl := h <;> rfl
  have number (n : Nat) : d ∉ Numeral.decimal n := Numeral.not_mem_decimal digit
  cases line with
  | heading i t => obtain rfl | rfl := h <;> simp [text_heading, number]
  | data length => obtain rfl | rfl := h <;> simp [text_data, number]
  | instruction i o instr =>
    have offset : d ∉ Numeral.hex 4 o := Numeral.not_mem_hex digit
    have name : d ∉ instr.info.name.toList :=
      instr.opcode.not_mem_name (by obtain rfl | rfl := h <;> rfl)
    have operands : d ∉ instr.operandText (o + instr.length) := Instruction.not_mem_operandText h instr
    rw [text_instruction, place]
    obtain rfl | rfl := h <;> simp [number, offset, name, operands]
  | byte i o b => exact absurd rfl (plain i o b)

theorem newline_not_mem_text (line : Line) : '\n' ∉ line.text := by
  cases line with
  | byte i o b =>
    have number : '\n' ∉ Numeral.decimal i := Numeral.not_mem_decimal rfl
    have offset : '\n' ∉ Numeral.hex 4 o := Numeral.not_mem_hex rfl
    have written : '\n' ∉ Numeral.bytes [b] := Numeral.not_mem_bytes rfl
    have digits : '\n' ∉ Numeral.byte b := by simpa [Numeral.bytes] using written
    simp [text_byte, place, number, offset, digits]
  | _ => exact not_mem_text (.inl rfl) (by rintro _ _ _ ⟨⟩)

end Line
end EvmObject
