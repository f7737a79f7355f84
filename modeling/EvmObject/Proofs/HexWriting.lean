import EvmObject.Hex
/-!
The texts that write bytes in hexadecimal: two digits of either case for each byte, at most one mark in front,
and blanks anywhere among these characters. Main statement: reading accepts just the writings of the bytes that it
gives, and names the first thing wrong with any other text (`decode_exact`).
-/
namespace EvmObject.Hex

variable {c : Char} {b : UInt8} {n position : Nat} {e : HexError}
  {text chars digits rest mark : List Char} {bytes out ds read : List UInt8}

/-- The digit of a number below sixteen, in either case. -/
def Denotes (c : Char) (n : Nat) : Prop :=
  n < 16 ∧ (c = Numeral.digit n ∨ c = (Numeral.digit n).toUpper)

/-- Two digits for each byte, the high one first. -/
inductive Spells : List Char → List UInt8 → Prop
  | nil : Spells [] []
  | cons {hi lo : Char} {b : UInt8} {digits : List Char} {bytes : List UInt8} :
      Denotes hi (b.toNat / 16) → Denotes lo (b.toNat % 16) → Spells digits bytes →
      Spells (hi :: lo :: digits) (b :: bytes)

/-- The second list is the first with blanks put in anywhere. -/
inductive Spaced : List Char → List Char → Prop
  | nil : Spaced [] []
  | blank {c : Char} {chars text : List Char} : isBlank c → Spaced chars text → Spaced chars (c :: text)
  | keep {c : Char} {chars text : List Char} : Spaced chars text → Spaced (c :: chars) (c :: text)

def IsMark (mark : List Char) : Prop :=
  mark = ['0', 'x'] ∨ mark = ['0', 'X']

def Writes (text : List Char) (bytes : List UInt8) : Prop :=
  ∃ mark digits, (mark = [] ∨ IsMark mark) ∧ Spells digits bytes ∧ Spaced (mark ++ digits) text

/-- What is left of the text without its blanks, and then without one mark if it starts with one. -/
def Leaves (text rest : List Char) : Prop :=
  ∃ kept, Spaced kept text ∧ (∀ c ∈ kept, isBlank c = false) ∧
    ((∃ mark, IsMark mark ∧ kept = mark ++ rest) ∨
      (kept = rest ∧ ∀ mark, IsMark mark → ¬ mark <+: kept))

def charOf (b : UInt8) : Char :=
  Char.ofNat b.toNat

def IsDigitByte (b : UInt8) : Prop :=
  ∃ n, Denotes (charOf b) n

/-- The first of the bytes that is no code of a digit is the one at the index. -/
inductive FirstBad : List UInt8 → Nat → UInt8 → Prop
  | here {b : UInt8} {ds : List UInt8} : ¬ IsDigitByte b → FirstBad (b :: ds) 0 b
  | later {d b : UInt8} {ds : List UInt8} {n : Nat} : IsDigitByte d → FirstBad ds n b →
      FirstBad (d :: ds) (n + 1) b

/-! ### Digits -/

theorem Denotes.all {P : Char → Prop} (h : Denotes c n)
    (holds : ∀ k : Fin 16, P (Numeral.digit k.val) ∧ P (Numeral.digit k.val).toUpper) : P c := by
  obtain ⟨small, rfl | rfl⟩ := h
  · exact (holds ⟨n, small⟩).1
  · exact (holds ⟨n, small⟩).2

theorem Denotes.lt_128 (h : Denotes c n) : c.toNat < 128 :=
  h.all (P := fun c => c.toNat < 128) (by decide)

theorem Denotes.not_blank (h : Denotes c n) : isBlank c = false :=
  h.all (P := fun c => isBlank c = false) (by decide)

theorem Denotes.ne_x (h : Denotes c n) : c ≠ 'x' ∧ c ≠ 'X' :=
  h.all (P := fun c => c ≠ 'x' ∧ c ≠ 'X') (by decide)

theorem lt_128_of_digit? (h : Numeral.digit? c = some n) : c.toNat < 128 := by
  have below {d : Char} (le : c ≤ d) (ascii : d.toNat < 128) : c.toNat < 128 :=
    Nat.lt_of_le_of_lt (UInt32.le_iff_toNat_le.1 le) ascii
  unfold Numeral.digit? at h
  split at h
  · rename_i decimal
    exact below decimal.2 (by decide)
  · split at h
    · rename_i small
      exact below small.2 (by decide)
    · split at h
      · rename_i capital
        exact below capital.2 (by decide)
      · cases h

theorem numeral_eq_some : Numeral.digit? c = some n ↔ Denotes c n := by
  constructor
  · intro h
    have all : ∀ k : Fin 128, ∀ n ∈ Numeral.digit? (Char.ofNat k.val), n < 16 ∧
        (Char.ofNat k.val = Numeral.digit n ∨ Char.ofNat k.val = (Numeral.digit n).toUpper) := by decide
    have found := all ⟨c.toNat, lt_128_of_digit? h⟩
    rw [Char.ofNat_toNat] at found
    exact found n h
  · rintro ⟨small, same⟩
    have all : ∀ k : Fin 16, Numeral.digit? (Numeral.digit k.val) = some k.val ∧
        Numeral.digit? (Numeral.digit k.val).toUpper = some k.val := by decide
    obtain ⟨lower, upper⟩ := all ⟨n, small⟩
    obtain rfl | rfl := same
    · exact lower
    · exact upper

theorem digit?_eq_some : digit? b = some n ↔ Denotes (charOf b) n :=
  numeral_eq_some

theorem digit?_eq_none : digit? b = none ↔ ¬ IsDigitByte b := by
  simp only [Option.eq_none_iff_forall_not_mem, Option.mem_def, digit?_eq_some, IsDigitByte, not_exists]

/-! ### Pairs of digits -/

theorem toNat_pair {h l : Nat} (high : h < 16) (low : l < 16) :
    (UInt8.ofNat (16 * h + l)).toNat / 16 = h ∧ (UInt8.ofNat (16 * h + l)).toNat % 16 = l := by
  simp only [UInt8.toNat_ofNat', Nat.reducePow]
  omega

theorem pair_toNat (b : UInt8) : UInt8.ofNat (16 * (b.toNat / 16) + b.toNat % 16) = b := by
  rw [Nat.div_add_mod, UInt8.ofNat_toNat]

theorem spells_cons {hi lo : Char} {h l : Nat} (high : Denotes hi h) (low : Denotes lo l) :
    Spells (hi :: lo :: digits) bytes ↔
      ∃ others, Spells digits others ∧ bytes = UInt8.ofNat (16 * h + l) :: others := by
  constructor
  · rintro (_ | ⟨high', low', others⟩)
    have first := Option.some.inj ((numeral_eq_some.2 high).symm.trans (numeral_eq_some.2 high'))
    have second := Option.some.inj ((numeral_eq_some.2 low).symm.trans (numeral_eq_some.2 low'))
    rw [first, second, pair_toNat]
    exact ⟨_, others, rfl⟩
  · rintro ⟨others, spelled, rfl⟩
    obtain ⟨first, second⟩ := toNat_pair high.1 low.1
    exact .cons (first.symm ▸ high) (second.symm ▸ low) spelled

theorem Spells.denotes (h : Spells digits bytes) : ∀ c ∈ digits, ∃ n, Denotes c n := by
  induction h with
  | nil => nofun
  | cons high low _ ih =>
    exact List.forall_mem_cons.2 ⟨⟨_, high⟩, List.forall_mem_cons.2 ⟨⟨_, low⟩, ih⟩⟩

theorem Spells.length_eq (h : Spells digits bytes) : digits.length = 2 * bytes.length := by
  induction h with
  | nil => rfl
  | cons high low _ ih =>
    simp only [List.length_cons, ih]
    omega

theorem eq_nil_of_short (short : ∀ (hi lo : UInt8) (rest : List UInt8), ds = hi :: lo :: rest → False)
    (even : ds.length % 2 = 0) : ds = [] := by
  obtain _ | ⟨hi, _ | ⟨lo, rest⟩⟩ := ds
  · rfl
  · simp at even
  · exact (short hi lo rest rfl).elim

theorem pairs_eq_ok (even : ds.length % 2 = 0) : pairs position read ds = .ok out ↔
    ∃ bytes, Spells (ds.map charOf) bytes ∧ out = read.reverse ++ bytes := by
  fun_induction pairs position read ds with
  | case1 position read hi lo rest h l low high ih =>
    rw [List.length_cons, List.length_cons] at even
    rw [ih (by omega)]
    simp only [List.map_cons, spells_cons (digit?_eq_some.1 high) (digit?_eq_some.1 low), List.reverse_cons,
      List.append_assoc]
    constructor
    · rintro ⟨bytes, spelled, rfl⟩
      exact ⟨_, ⟨bytes, spelled, rfl⟩, rfl⟩
    · rintro ⟨_, ⟨bytes, spelled, rfl⟩, rfl⟩
      exact ⟨bytes, spelled, rfl⟩
  | case2 position read hi lo rest none =>
    rw [digit?_eq_none] at none
    constructor
    · rintro ⟨⟩
    · rintro ⟨bytes, spelled, _⟩
      exact absurd (spelled.denotes (charOf hi) List.mem_cons_self) none
  | case3 position read hi lo rest h none high =>
    rw [digit?_eq_none] at none
    constructor
    · rintro ⟨⟩
    · rintro ⟨bytes, spelled, _⟩
      exact absurd (spelled.denotes (charOf lo) (List.mem_cons_of_mem _ List.mem_cons_self)) none
  | case4 read position ds short =>
    obtain rfl := eq_nil_of_short short even
    constructor
    · rintro ⟨⟩
      exact ⟨[], .nil, (List.append_nil _).symm⟩
    · rintro ⟨_, ⟨⟩, rfl⟩
      rw [List.append_nil]

theorem pairs_eq_error (even : ds.length % 2 = 0) :
    pairs position read ds = .error e ↔ ∃ n b, FirstBad ds n b ∧ e = .invalidDigit b (position + n) := by
  fun_induction pairs position read ds with
  | case1 position read hi lo rest h l low high ih =>
    have first : IsDigitByte hi := ⟨h, digit?_eq_some.1 high⟩
    have second : IsDigitByte lo := ⟨l, digit?_eq_some.1 low⟩
    rw [List.length_cons, List.length_cons] at even
    rw [ih (by omega)]
    constructor
    · rintro ⟨n, b, bad, rfl⟩
      exact ⟨n + 2, b, .later first (.later second bad), by rw [Nat.add_assoc, Nat.add_comm 2]⟩
    · rintro ⟨_, b, none | ⟨_, none | ⟨_, bad⟩⟩, rfl⟩
      · exact absurd first none
      · exact absurd second none
      · exact ⟨_, b, bad, by rw [Nat.add_assoc, Nat.add_assoc, Nat.add_comm 2]⟩
  | case2 position read hi lo rest none =>
    rw [digit?_eq_none] at none
    constructor
    · rintro ⟨⟩
      exact ⟨0, hi, .here none, rfl⟩
    · rintro ⟨_, b, _ | ⟨first, _⟩, rfl⟩
      · rfl
      · exact absurd first none
  | case3 position read hi lo rest h none high =>
    have first : IsDigitByte hi := ⟨h, digit?_eq_some.1 high⟩
    rw [digit?_eq_none] at none
    constructor
    · rintro ⟨⟩
      exact ⟨1, lo, .later first (.here none), rfl⟩
    · rintro ⟨_, b, bad | ⟨_, _ | ⟨second, _⟩⟩, rfl⟩
      · exact absurd first bad
      · rfl
      · exact absurd second none
  | case4 read position ds short =>
    obtain rfl := eq_nil_of_short short even
    constructor
    · rintro ⟨⟩
    · rintro ⟨_, _, ⟨⟩, _⟩

/-! ### Characters and their bytes -/

theorem utf8_of_lt (ascii : c.toNat < 128) : String.utf8EncodeChar c = [UInt8.ofNat c.toNat] :=
  if_pos (Nat.le_of_lt_succ ascii)

theorem lt_128_of_utf8 (bytes : ∀ b ∈ String.utf8EncodeChar c, b.toNat < 128) : c.toNat < 128 := by
  have lead {k : Nat} (high : 192 ≤ k) (low : k < 256) : ¬ (UInt8.ofNat k).toNat < 128 := by
    rw [UInt8.toNat_ofNat', Nat.mod_eq_of_lt low]
    omega
  rw [String.utf8EncodeChar] at bytes
  split at bytes
  · rename_i one
    exact Nat.lt_succ_of_le one
  · split at bytes
    · exact absurd (bytes _ List.mem_cons_self) (lead (by omega) (by omega))
    · split at bytes
      · exact absurd (bytes _ List.mem_cons_self) (lead (by omega) (by omega))
      · exact absurd (bytes _ List.mem_cons_self) (lead (by omega) (by omega))

theorem charOf_ofNat (ascii : c.toNat < 128) : charOf (UInt8.ofNat c.toNat) = c := by
  have same : (UInt8.ofNat c.toNat).toNat = c.toNat := by
    simp only [UInt8.toNat_ofNat', Nat.reducePow]
    omega
  rw [charOf, same, Char.ofNat_toNat]

theorem map_charOf_utf8 (ascii : ∀ c ∈ chars, c.toNat < 128) :
    (chars.flatMap String.utf8EncodeChar).map charOf = chars := by
  induction chars with
  | nil => rfl
  | cons c chars ih =>
    obtain ⟨first, others⟩ := List.forall_mem_cons.1 ascii
    rw [List.flatMap_cons, utf8_of_lt first, List.map_append, ih others, List.map_singleton,
      charOf_ofNat first, List.singleton_append]

theorem toNat_charOf (b : UInt8) : (charOf b).toNat = b.toNat := by
  have valid : b.toNat.isValidChar := .inl (Nat.lt_trans b.toNat_lt (by decide))
  rw [charOf, Char.ofNat, dif_pos valid]
  rfl

/-- Characters spell what their bytes spell: no byte of a character that takes several is the code of a digit. -/
theorem spells_utf8 : Spells ((chars.flatMap String.utf8EncodeChar).map charOf) bytes ↔ Spells chars bytes := by
  constructor
  · intro spelled
    have ascii : ∀ c ∈ chars, c.toNat < 128 := by
      intro c among
      refine lt_128_of_utf8 fun b member => ?_
      obtain ⟨n, digit⟩ := spelled.denotes (charOf b)
        (List.mem_map_of_mem (List.mem_flatMap.2 ⟨c, among, member⟩))
      rw [← toNat_charOf]
      exact digit.lt_128
    rwa [map_charOf_utf8 ascii] at spelled
  · intro spelled
    rwa [map_charOf_utf8]
    intro c among
    obtain ⟨n, digit⟩ := spelled.denotes c among
    exact digit.lt_128

/-! ### Blanks and marks -/

def unspaced (text : List Char) : List Char :=
  text.filter fun c => !isBlank c

theorem not_blank_of_mem_unspaced (h : c ∈ unspaced text) : isBlank c = false := by
  simpa using (List.mem_filter.1 h).2

theorem spaced_unspaced (text : List Char) : Spaced (unspaced text) text := by
  induction text with
  | nil => exact .nil
  | cons c text ih =>
    cases blank : isBlank c with
    | true =>
      rw [unspaced, List.filter_cons_of_neg (by simp [blank])]
      exact .blank blank ih
    | false =>
      rw [unspaced, List.filter_cons_of_pos (by simp [blank])]
      exact .keep ih

theorem Spaced.unspaced_eq (spaced : Spaced chars text) (plain : ∀ c ∈ chars, isBlank c = false) :
    unspaced text = chars := by
  induction spaced with
  | nil => rfl
  | blank blank _ ih =>
    rw [unspaced, List.filter_cons_of_neg (by simp [blank])]
    exact ih plain
  | keep _ ih =>
    obtain ⟨first, others⟩ := List.forall_mem_cons.1 plain
    rw [unspaced, List.filter_cons_of_pos (by simp [first])]
    exact congrArg _ (ih others)

theorem IsMark.not_blank (marked : IsMark mark) : ∀ c ∈ mark, isBlank c = false := by
  have zero : isBlank '0' = false := rfl
  obtain rfl | rfl := marked
  · exact List.forall_mem_cons.2 ⟨zero, List.forall_mem_singleton.2 rfl⟩
  · exact List.forall_mem_cons.2 ⟨zero, List.forall_mem_singleton.2 rfl⟩

theorem unmarked_mark (marked : IsMark mark) : unmarked (mark ++ rest) = rest := by
  obtain rfl | rfl := marked
  · rfl
  · rfl

theorem unmarked_plain (none : ∀ mark, IsMark mark → ¬ mark <+: chars) : unmarked chars = chars := by
  unfold unmarked
  split
  · exact absurd (List.prefix_append _ _) (none ['0', 'x'] (.inl rfl))
  · exact absurd (List.prefix_append _ _) (none ['0', 'X'] (.inr rfl))
  · rfl

theorem unmarked_cases (chars : List Char) : (∃ mark, IsMark mark ∧ chars = mark ++ unmarked chars) ∨
    (chars = unmarked chars ∧ ∀ mark, IsMark mark → ¬ mark <+: chars) := by
  by_cases marked : ∃ mark, IsMark mark ∧ mark <+: chars
  · obtain ⟨mark, isMark, rest, rfl⟩ := marked
    exact .inl ⟨mark, isMark, by rw [unmarked_mark isMark]⟩
  · simp only [not_exists, not_and] at marked
    exact .inr ⟨(unmarked_plain marked).symm, marked⟩

theorem leaves_iff : Leaves text rest ↔ rest = unmarked (unspaced text) := by
  constructor
  · rintro ⟨kept, spaced, plain, ⟨mark, marked, rfl⟩ | ⟨rfl, none⟩⟩
    · rw [spaced.unspaced_eq plain, unmarked_mark marked]
    · rw [spaced.unspaced_eq plain, unmarked_plain none]
  · rintro rfl
    exact ⟨unspaced text, spaced_unspaced text, fun _ => not_blank_of_mem_unspaced, unmarked_cases _⟩

theorem Spells.not_marked (spelled : Spells digits bytes) (marked : IsMark mark) : ¬ mark <+: digits := by
  rintro ⟨rest, rfl⟩
  obtain rfl | rfl := marked
  · obtain ⟨n, digit⟩ := spelled.denotes 'x' (by simp)
    exact digit.ne_x.1 rfl
  · obtain ⟨n, digit⟩ := spelled.denotes 'X' (by simp)
    exact digit.ne_x.2 rfl

theorem writes_iff : Writes text bytes ↔ Spells (unmarked (unspaced text)) bytes := by
  constructor
  · rintro ⟨mark, digits, marked, spelled, spaced⟩
    have plain : ∀ c ∈ digits, isBlank c = false := by
      intro c among
      obtain ⟨n, digit⟩ := spelled.denotes c among
      exact digit.not_blank
    obtain rfl | marked := marked
    · rw [spaced.unspaced_eq plain, List.nil_append, unmarked_plain fun _ => spelled.not_marked]
      exact spelled
    · have whole : ∀ c ∈ mark ++ digits, isBlank c = false :=
        List.forall_mem_append.2 ⟨marked.not_blank, plain⟩
      rwa [spaced.unspaced_eq whole, unmarked_mark marked]
  · intro spelled
    have spaced := spaced_unspaced text
    obtain ⟨mark, marked, same⟩ | ⟨same, _⟩ := unmarked_cases (unspaced text)
    · exact ⟨mark, _, .inr marked, spelled, same ▸ spaced⟩
    · exact ⟨[], _, .inl rfl, spelled, same ▸ spaced⟩

/-! ### Reading -/

theorem significant_eq (text : List Char) :
    significant text = (unmarked (unspaced text)).flatMap String.utf8EncodeChar := rfl

theorem decode_eq_ok : decode text = .ok bytes ↔ Writes text bytes := by
  rw [writes_iff, ← spells_utf8, ← significant_eq, decode]
  split
  · rename_i even
    rw [pairs_eq_ok even]
    constructor
    · rintro ⟨_, spelled, rfl⟩
      exact spelled
    · exact fun spelled => ⟨bytes, spelled, rfl⟩
  · rename_i odd
    constructor
    · rintro ⟨⟩
    · intro spelled
      have even := spelled.length_eq
      rw [List.length_map] at even
      omega

theorem decode_eq_oddLength : decode text = .error .oddLength ↔ (significant text).length % 2 = 1 := by
  rw [decode]
  split
  · rename_i even
    rw [pairs_eq_error even]
    constructor
    · rintro ⟨_, _, _, ⟨⟩⟩
    · omega
  · rename_i odd
    simp only [true_iff]
    omega

theorem decode_eq_invalidDigit : decode text = .error (.invalidDigit b n) ↔
    (significant text).length % 2 = 0 ∧ FirstBad (significant text) n b := by
  rw [decode]
  split
  · rename_i even
    rw [pairs_eq_error even]
    constructor
    · rintro ⟨m, _, bad, same⟩
      obtain ⟨rfl, rfl⟩ := HexError.invalidDigit.inj same
      rw [Nat.zero_add]
      exact ⟨even, bad⟩
    · rintro ⟨_, bad⟩
      exact ⟨n, b, bad, by rw [Nat.zero_add]⟩
  · rename_i odd
    simp [odd]

/-- A text is read just if it writes bytes, and as those. Of any other, what is left of it without blanks and mark
counts: either its UTF-8 bytes are odd in number, and then the text is refused for that, or the first of them that
is no digit is named with its index. -/
theorem decode_exact (text : List Char) :
    (∀ bytes, decode text = .ok bytes ↔ Writes text bytes) ∧
    ∃ rest, (∀ other, Leaves text other ↔ other = rest) ∧
      (decode text = .error .oddLength ↔ (rest.flatMap String.utf8EncodeChar).length % 2 = 1) ∧
      ∀ b n, decode text = .error (.invalidDigit b n) ↔
        (rest.flatMap String.utf8EncodeChar).length % 2 = 0 ∧
          FirstBad (rest.flatMap String.utf8EncodeChar) n b := by
  refine ⟨fun _ => decode_eq_ok, unmarked (unspaced text), fun _ => leaves_iff, ?_, ?_⟩
  · exact decode_eq_oddLength
  · exact fun _ _ => decode_eq_invalidDigit

example : decode ['0', '\u00a0', 'X', 'e', '\n', 'F', '0', '0', ' '] = .ok [0xEF, 0x00] := rfl

end EvmObject.Hex
