import EvmObject.Container.Cursor.Lemmas
/-!
Reads from a cursor one after the other, going on past those that fail. `Tape` carries them out on all of the bytes
with an index into them, so that a read could leave the index moved and fail then, or move it past the end. Main
statement: no read does, each takes all of its bytes or none, and those taken so far are the bytes in front of the
offset (`reads_lossless`).
-/
namespace EvmObject

/-- A read from a cursor: a byte, a 16-bit number, a row of fixed width, or as many bytes as told. -/
inductive CursorRead where
  | byte
  | word16
  | row (n : Nat)
  | take (n : Nat)

/-- All of the bytes and the index of the next one to be read. -/
structure Tape where
  bytes : List UInt8
  offset : Nat

/-- Moves the index of a tape on the way to a value or to an error; after an error it is where that arose. -/
abbrev Pull := EStateM LayoutError Tape

namespace Tape

def sum? (m n : Nat) : Option Nat :=
  if m + n < UInt64.size then some (m + n) else none

/-- The bytes from one index up to another, if the two are in order and none is missing. -/
def slice? (bytes : List UInt8) (start stop : Nat) : Option (List UInt8) :=
  if start ≤ stop ∧ stop ≤ bytes.length then some (bytes.extract start stop) else none

def take (n : Nat) : Pull (List UInt8) := do
  let t ← get
  ((sum? t.offset n).bind (slice? t.bytes t.offset)).elim (throw (.unexpectedEnd t.offset)) fun front => do
    set { t with offset := t.offset + n }
    return front

end Tape

namespace CursorRead

variable {σ : Type} {read : CursorRead} {c d : Cursor} {t : Tape} {bytes given front : List UInt8} {n : Nat}

def Value : CursorRead → Type
  | byte => UInt8
  | word16 => UInt16
  | row n => Vector UInt8 n
  | take _ => List UInt8

def size : CursorRead → Nat
  | byte => 1
  | word16 => 2
  | row n => n
  | take n => n

def fill (n : Nat) (front : List UInt8) : Vector UInt8 n :=
  Vector.ofFn fun i => front.getD i.val 0

def value : (read : CursorRead) → List UInt8 → read.Value
  | byte, front => front.getD 0 0
  | word16, front => BigEndian.word16 (front.getD 0 0) (front.getD 1 0)
  | row n, front => fill n front
  | take _, front => front

def written : (read : CursorRead) → read.Value → List UInt8
  | byte, b => [b]
  | word16, w => BigEndian.bytes16 w
  | row _, cells => cells.toList
  | take _, front => front

def reader : (read : CursorRead) → Reader read.Value
  | byte => Reader.byte
  | word16 => Reader.word16
  | row n => do
    let front ← Reader.take n
    return fill n front
  | take n => Reader.take n

def pull (read : CursorRead) : Pull read.Value := do
  let front ← Tape.take read.size
  return read.value front

/-- The bytes that the reads give back, all in one, and where they lead. One that fails adds none, and the others go on
from where it failed. -/
def run (make : (read : CursorRead) → EStateM LayoutError σ read.Value) : List CursorRead → σ → List UInt8 × σ
  | [], s => ([], s)
  | read :: reads, s =>
    match make read s with
    | .ok a s' => (read.written a ++ (run make reads s').1, (run make reads s').2)
    | .error _ s' => run make reads s'

theorem run_of_ok {make : (read : CursorRead) → EStateM LayoutError σ read.Value} {reads : List CursorRead}
    {s s' : σ} {a : read.Value} (made : make read s = .ok a s') :
    run make (read :: reads) s = (read.written a ++ (run make reads s').1, (run make reads s').2) := by
  rw [run, made]

theorem run_of_error {make : (read : CursorRead) → EStateM LayoutError σ read.Value} {reads : List CursorRead}
    {s s' : σ} {e : LayoutError} (made : make read s = .error e s') :
    run make (read :: reads) s = run make reads s' := by
  rw [run, made]

/-! ### Values and their bytes -/

theorem toList_fill (whole : front.length = n) : (fill n front).toList = front := by
  subst whole
  rw [fill, Vector.toList_ofFn]
  refine List.ext_getElem List.length_ofFn fun i _ within => ?_
  rw [List.getElem_ofFn, List.getD_eq_getElem?_getD, List.getElem?_eq_getElem within, Option.getD_some]

theorem written_value (whole : front.length = read.size) : read.written (read.value front) = front := by
  cases read with
  | byte =>
    obtain ⟨b, rfl⟩ := List.length_eq_one_iff.1 whole
    rfl
  | word16 =>
    obtain _ | ⟨hi, _ | ⟨lo, _ | _⟩⟩ := front
    · cases whole
    · cases whole
    · exact BigEndian.bytes16_word16 hi lo
    · cases whole
  | row n => exact toList_fill whole
  | take n => rfl

theorem written_inj {a b : read.Value} (same : read.written a = read.written b) : a = b := by
  cases read with
  | byte => exact (List.cons.inj same).1
  | word16 => exact BigEndian.bytes16_inj same
  | row n => exact Vector.toList_inj.1 same
  | take n => exact same

/-! ### A read from a cursor -/

theorem reader_eq_ok {a : read.Value} : read.reader c = .ok a d ↔
    (read.written a).length = read.size ∧ c.Passes (read.written a) d := by
  cases read with
  | byte => exact Reader.byte_eq_ok.trans (and_iff_right rfl).symm
  | word16 => exact Reader.word16_eq_ok.trans (and_iff_right rfl).symm
  | row n =>
    constructor
    · intro took
      obtain ⟨front, mid, taken, filled⟩ := Reader.bind_eq_ok.1 took
      obtain ⟨rfl, rfl⟩ := Reader.pure_eq_ok.1 filled
      obtain ⟨whole, passes⟩ := Reader.take_eq_ok.1 taken
      change (fill n front).toList.length = n ∧ c.Passes (fill n front).toList mid
      rw [toList_fill whole]
      exact ⟨whole, passes⟩
    · rintro ⟨whole, passes⟩
      have same : fill n a.toList = a := Vector.toList_inj.1 (toList_fill whole)
      have taken : Reader.take n c = .ok a.toList d := Reader.take_eq_ok.2 ⟨whole, passes⟩
      exact Reader.bind_eq_ok.2 ⟨a.toList, d, taken, Reader.pure_eq_ok.2 ⟨same, rfl⟩⟩
  | take n => exact Reader.take_eq_ok

theorem reader_of_lt (few : c.rest.length < read.size) :
    read.reader c = .error (.unexpectedEnd c.offset) c := by
  cases read with
  | byte =>
    obtain ⟨k, rest⟩ := c
    obtain rfl := List.length_eq_zero_iff.1 (Nat.lt_one_iff.1 few)
    rfl
  | word16 => exact Reader.word16_short few c.offset
  | row n => exact Reader.bind_eq_error.2 (.inl (Reader.take_short few c.offset))
  | take n => exact Reader.take_short few c.offset

theorem reader_of_le (enough : read.size ≤ c.rest.length) :
    read.reader c = .ok (read.value (c.rest.take read.size)) ⟨c.offset + read.size, c.rest.drop read.size⟩ := by
  have whole : (c.rest.take read.size).length = read.size := List.length_take_of_le enough
  rw [reader_eq_ok, written_value whole]
  exact ⟨whole, (List.take_append_drop _ _).symm, by rw [whole]⟩

theorem reader_eq_error {e : LayoutError} : read.reader c = .error e d ↔
    c.rest.length < read.size ∧ e = .unexpectedEnd c.offset ∧ d = c := by
  by_cases enough : read.size ≤ c.rest.length
  · rw [reader_of_le enough]
    simp [Nat.not_lt.2 enough]
  · have few := Nat.lt_of_not_le enough
    rw [reader_of_lt few]
    simp [few, eq_comm]

theorem reader_takes {a : read.Value} : read.reader c = .ok a d ↔ read.size ≤ c.rest.length ∧
    read.written a = c.rest.take read.size ∧ d = ⟨c.offset + read.size, c.rest.drop read.size⟩ := by
  constructor
  · intro took
    obtain ⟨whole, passes⟩ := reader_eq_ok.1 took
    rw [← whole, passes.rest, List.length_append, List.take_left, List.drop_left, ← passes.offset]
    exact ⟨Nat.le_add_right _ _, rfl, rfl⟩
  · rintro ⟨enough, shown, rfl⟩
    have whole : (c.rest.take read.size).length = read.size := List.length_take_of_le enough
    rw [reader_of_le enough, written_inj (shown.trans (written_value whole).symm)]

theorem word16_iff {w : UInt16} : Reader.word16 c = .ok w d ↔ ∃ hi lo mid,
    Reader.byte c = .ok hi mid ∧ Reader.byte mid = .ok lo d ∧ w.toNat = BigEndian.value [hi, lo] := by
  have pair (hi lo : UInt8) : (BigEndian.word16 hi lo).toNat = BigEndian.value [hi, lo] := by
    rw [BigEndian.toNat_word16]
    simp [BigEndian.value]
  constructor
  · intro took
    obtain ⟨mid, first, second⟩ := Cursor.passes_append (u := [_]).1 (Reader.word16_eq_ok.1 took)
    refine ⟨_, _, mid, Reader.byte_eq_ok.2 first, Reader.byte_eq_ok.2 second, ?_⟩
    rw [← pair, BigEndian.word16_bytes16]
  · rintro ⟨hi, lo, mid, first, second, number⟩
    obtain rfl := UInt16.toNat.inj (number.trans (pair hi lo).symm)
    have passes := Cursor.passes_append.2 ⟨mid, Reader.byte_eq_ok.1 first, Reader.byte_eq_ok.1 second⟩
    rw [Reader.word16_eq_ok, BigEndian.bytes16_word16]
    exact passes

/-! ### The same read on a tape -/

/-- What a cursor comes to, with the index in place of the cursor. -/
def onTape {α : Type} (bytes : List UInt8) :
    EStateM.Result LayoutError Cursor α → EStateM.Result LayoutError Tape α
  | .ok a d => .ok a ⟨bytes, d.offset⟩
  | .error e d => .error e ⟨bytes, d.offset⟩

theorem tape_take_of_le (addressed : t.bytes.length < UInt64.size) (enough : t.offset + n ≤ t.bytes.length) :
    Tape.take n t = .ok ((t.bytes.drop t.offset).take n) ⟨t.bytes, t.offset + n⟩ := by
  have slice : (Tape.sum? t.offset n).bind (Tape.slice? t.bytes t.offset)
      = some ((t.bytes.drop t.offset).take n) := by
    rw [Tape.sum?, if_pos (Nat.lt_of_le_of_lt enough addressed), Option.bind_some, Tape.slice?,
      if_pos ⟨Nat.le_add_right _ _, enough⟩, List.extract_eq_take_drop, Nat.add_sub_cancel_left]
  change (((Tape.sum? t.offset n).bind (Tape.slice? t.bytes t.offset)).elim _ _ : Pull _) t = _
  rw [slice]
  rfl

/-- A sum that does not fit 64 bits is past the last byte too, and is refused the same way. -/
theorem tape_take_of_lt (few : t.bytes.length < t.offset + n) :
    Tape.take n t = .error (.unexpectedEnd t.offset) t := by
  have slice : (Tape.sum? t.offset n).bind (Tape.slice? t.bytes t.offset) = none := by
    rw [Option.bind_eq_none_iff]
    intro stop sum
    obtain ⟨_, same⟩ := Option.ite_none_right_eq_some.1 sum
    cases same
    exact if_neg fun within => Nat.not_lt.2 within.2 few
  change (((Tape.sum? t.offset n).bind (Tape.slice? t.bytes t.offset)).elim _ _ : Pull _) t = _
  rw [slice]
  rfl

theorem pull_of_le (addressed : t.bytes.length < UInt64.size) (enough : t.offset + read.size ≤ t.bytes.length) :
    read.pull t = .ok (read.value ((t.bytes.drop t.offset).take read.size)) ⟨t.bytes, t.offset + read.size⟩ := by
  change EStateM.bind (Tape.take read.size) _ t = _
  rw [EStateM.bind, tape_take_of_le addressed enough]
  rfl

theorem pull_of_lt (few : t.bytes.length < t.offset + read.size) :
    read.pull t = .error (.unexpectedEnd t.offset) t := by
  change EStateM.bind (Tape.take read.size) _ t = _
  rw [EStateM.bind, tape_take_of_lt few]

theorem place_of_passes (passes : (Cursor.ofBytes bytes).Passes front c) :
    front = bytes.take c.offset ∧ c.rest = bytes.drop c.offset ∧ c.offset + c.rest.length = bytes.length := by
  have shape : bytes = front ++ c.rest := passes.rest
  have place : c.offset = front.length := passes.offset.trans (Nat.zero_add _)
  rw [place, shape]
  exact ⟨List.take_left.symm, List.drop_left.symm, List.length_append.symm⟩

/-- On a tape a read comes to the same as from a cursor, and where it fails the index stays. -/
theorem pull_eq (addressed : bytes.length < UInt64.size) (passes : (Cursor.ofBytes bytes).Passes front c)
    (read : CursorRead) : read.pull ⟨bytes, c.offset⟩ = onTape bytes (read.reader c) := by
  -- At an index past the last byte the two differ: there a tape refuses even to take no bytes.
  obtain ⟨_, rest, total⟩ := place_of_passes passes
  by_cases enough : read.size ≤ c.rest.length
  · rw [reader_of_le enough, pull_of_le addressed (by dsimp only; omega), onTape, rest]
  · have few := Nat.lt_of_not_le enough
    rw [reader_of_lt few, pull_of_lt (by dsimp only; omega), onTape]

/-! ### Any reads one after the other -/

theorem run_passes {reads : List CursorRead} (history : run reader reads c = (given, d)) : c.Passes given d := by
  induction reads generalizing c given with
  | nil =>
    cases history
    exact Cursor.passes_nil.2 rfl
  | cons read reads ih =>
    cases made : read.reader c with
    | ok a mid =>
      rw [run_of_ok made] at history
      cases history
      exact Cursor.passes_append.2 ⟨mid, (reader_eq_ok.1 made).2, ih rfl⟩
    | error e mid =>
      rw [run_of_error made] at history
      obtain ⟨_, _, rfl⟩ := reader_eq_error.1 made
      exact ih history

theorem run_pull (addressed : bytes.length < UInt64.size) (passes : (Cursor.ofBytes bytes).Passes front c)
    (reads : List CursorRead) :
    run pull reads ⟨bytes, c.offset⟩ = ((run reader reads c).1, ⟨bytes, (run reader reads c).2.offset⟩) := by
  induction reads generalizing front c with
  | nil => rfl
  | cons read reads ih =>
    have same := pull_eq addressed passes read
    cases made : read.reader c with
    | ok a mid =>
      rw [made, onTape] at same
      have further := Cursor.passes_append.2 ⟨c, passes, (reader_eq_ok.1 made).2⟩
      rw [run_of_ok made, run_of_ok same, ih further]
    | error e mid =>
      rw [made, onTape] at same
      obtain ⟨_, _, rfl⟩ := reader_eq_error.1 made
      rw [run_of_error made, run_of_error same, ih passes]

/-- After any reads from the first byte on, also past some that failed, the offset and the count of bytes left make up
the number of bytes, and all that was given back are the bytes in front of the offset. Whatever the next read is, it
fails just if fewer bytes are left than it asks for, at that offset and with the cursor where it was. It succeeds just
if they are there, gives back the very next ones and moves past them. A 16-bit number is two bytes, the high one first.
On a tape with no more bytes than 64 bits count, the same reads give back the same bytes and lead to the same index, and
so does the next one, whatever its size. -/
theorem reads_lossless {reads : List CursorRead}
    (history : run reader reads (Cursor.ofBytes bytes) = (given, c)) (read : CursorRead) :
    c.offset ≤ bytes.length ∧ given = bytes.take c.offset ∧
    (∃ left, Reader.offset c = .ok c.offset c ∧ Reader.remaining c = .ok left c ∧ c.offset + left = bytes.length ∧
      (∀ e d, read.reader c = .error e d ↔ left < read.size ∧ e = .unexpectedEnd c.offset ∧ d = c) ∧
      ∀ a d, read.reader c = .ok a d ↔ read.size ≤ left ∧
        read.written a = (bytes.drop c.offset).take read.size ∧
        d = ⟨c.offset + read.size, bytes.drop (c.offset + read.size)⟩) ∧
    (∀ w d, Reader.word16 c = .ok w d ↔ ∃ hi lo mid, Reader.byte c = .ok hi mid ∧ Reader.byte mid = .ok lo d ∧
      w.toNat = BigEndian.value [hi, lo]) ∧
    (bytes.length < UInt64.size → run pull reads ⟨bytes, 0⟩ = (given, ⟨bytes, c.offset⟩) ∧
      read.pull ⟨bytes, c.offset⟩ = onTape bytes (read.reader c)) := by
  have passes := run_passes history
  obtain ⟨all, rest, total⟩ := place_of_passes passes
  refine ⟨by omega, all, ⟨c.rest.length, rfl, rfl, total, fun _ _ => reader_eq_error, ?_⟩,
    fun _ _ => word16_iff, ?_⟩
  · intro a d
    rw [← List.drop_drop, ← rest]
    exact reader_takes
  · intro addressed
    have start := run_pull addressed (Cursor.passes_nil.2 rfl) reads
    rw [history] at start
    exact ⟨start, pull_eq addressed passes read⟩

/-- Three bytes hold one 16-bit number. The next one and a row of four are refused, and the last byte is still there. -/
theorem reads_lossless_odd :
    run reader [word16, word16, row 4] (Cursor.ofBytes [0xEF, 0x00, 0x01]) = ([0xEF, 0x00], ⟨2, [0x01]⟩) ∧
    run pull [word16, word16, row 4] ⟨[0xEF, 0x00, 0x01], 0⟩ = ([0xEF, 0x00], ⟨[0xEF, 0x00, 0x01], 2⟩) ∧
    word16.reader ⟨2, [0x01]⟩ = .error (.unexpectedEnd 2) ⟨2, [0x01]⟩ ∧
    byte.reader ⟨2, [0x01]⟩ = .ok (0x01 : UInt8) ⟨3, []⟩ := by
  have history : run reader [word16, word16, row 4] (Cursor.ofBytes [0xEF, 0x00, 0x01])
      = ([0xEF, 0x00], ⟨2, [0x01]⟩) := rfl
  obtain ⟨_, _, ⟨left, _, remain, _, fails, _⟩, _, tape⟩ := reads_lossless history word16
  obtain ⟨_, _, ⟨left', _, remain', _, _, succeeds⟩, _⟩ := reads_lossless history byte
  cases remain
  cases remain'
  exact ⟨history, (tape (by decide)).1, (fails _ _).2 ⟨by decide, rfl, rfl⟩,
    (succeeds _ _).2 ⟨by decide, rfl, rfl⟩⟩

end CursorRead
end EvmObject
