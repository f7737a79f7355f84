import EvmObject.Text.Numeral
import EvmObject.Text.Stretch
/-!
Numerals tell their numbers, also in front of other text, as long as that does not go on with a digit.
Main statements: `decimal_append_inj`, `hex_append_inj`, `signed_append_inj` and `bytes_inj`. What is written
is read back by `decimal?` and `hex?`, which know nothing of the writing.
-/
namespace EvmObject.Numeral

variable {width : Nat} {r s : List Char}

def isDigit (c : Char) : Bool :=
  (digit? c).isSome

def value (digits : List Char) : Nat :=
  digits.foldl (fun v c => 16 * v + (digit? c).getD 0) 0

theorem value_append_single (digits : List Char) (c : Char) :
    value (digits ++ [c]) = 16 * value digits + (digit? c).getD 0 := by
  rw [value, List.foldl_append]
  rfl

theorem digit?_digitChar (n : Nat) (h : n < 16) : digit? n.digitChar = some n := by
  have all : ∀ k : Fin 16, digit? (Nat.digitChar k.val) = some k.val := by decide
  exact all ⟨n, h⟩

theorem value_toDigits (n : Nat) : value (Nat.toDigits 16 n) = n := by
  induction n using Nat.strongRecOn with
  | ind n ih =>
    rw [Nat.toDigits_eq_if (by decide)]
    split
    · rename_i small
      simp [value, digit?_digitChar n small]
    · have last : n % 16 < 16 := Nat.mod_lt _ (by decide)
      rw [value_append_single, ih (n / 16) (by omega), digit?_digitChar _ last, Option.getD_some]
      omega

theorem value_zeros (k : Nat) (digits : List Char) :
    value (List.replicate k '0' ++ digits) = value digits := by
  induction k with
  | zero => rfl
  | succ k ih => exact ih

theorem value_hex (width n : Nat) : value (hex width n) = n := by
  rw [hex, value_zeros, value_toDigits]

theorem isDigit_of_mem_toDigits {n : Nat} {c : Char} (h : c ∈ Nat.toDigits 16 n) : isDigit c := by
  induction n using Nat.strongRecOn with
  | ind n ih =>
    rw [Nat.toDigits_eq_if (by decide)] at h
    split at h
    · rename_i small
      obtain rfl := List.mem_singleton.1 h
      simp [isDigit, digit?_digitChar n small]
    · have last : n % 16 < 16 := Nat.mod_lt _ (by decide)
      obtain front | rfl := (List.mem_append.1 h).imp_right List.mem_singleton.1
      · exact ih (n / 16) (by omega) front
      · simp [isDigit, digit?_digitChar _ last]

theorem isDigit_of_mem_hex {n : Nat} {c : Char} (h : c ∈ hex width n) : isDigit c := by
  obtain zero | digit := List.mem_append.1 h
  · obtain rfl := (List.mem_replicate.1 zero).2
    rfl
  · exact isDigit_of_mem_toDigits digit

theorem isDigit_of_mem_decimal {n : Nat} {c : Char} (h : c ∈ decimal n) : isDigit c := by
  have digit := Nat.isDigit_of_mem_toDigits (by decide) (by decide) h
  simp only [Char.isDigit, Bool.and_eq_true, decide_eq_true_eq] at digit
  have range : '0' ≤ c ∧ c ≤ '9' := digit
  simp [isDigit, digit?, range]

theorem isDigit_of_mem_bytes {bs : List UInt8} {c : Char} (h : c ∈ bytes bs) : isDigit c := by
  obtain ⟨b, _, written⟩ := List.mem_flatMap.1 h
  have := b.toNat_lt
  obtain rfl | rfl : c = digit (b.toNat / 16) ∨ c = digit (b.toNat % 16) := by simpa [byte] using written
  · simp [isDigit, digit?_digit (b.toNat / 16) (by omega)]
  · simp [isDigit, digit?_digit (b.toNat % 16) (by omega)]

def decimal? (digits : List Char) : Option Nat :=
  if digits ≠ [] ∧ digits.all Char.isDigit then some (Nat.ofDigitChars 10 digits 0) else none

def hex? (digits : List Char) : Option Nat :=
  if digits ≠ [] ∧ digits.all isDigit then some (value digits) else none

theorem decimal_ne_nil (n : Nat) : decimal n ≠ [] :=
  Nat.toDigits_ne_nil

theorem hex_ne_nil (width n : Nat) : hex width n ≠ [] :=
  List.append_ne_nil_of_right_ne_nil _ Nat.toDigits_ne_nil

theorem decimal?_decimal (n : Nat) : decimal? (decimal n) = some n := by
  have digits : (decimal n).all Char.isDigit = true := by
    rw [List.all_eq_true]
    intro c written
    exact Nat.isDigit_of_mem_toDigits (by decide) (by decide) written
  rw [decimal?, if_pos ⟨decimal_ne_nil n, digits⟩, decimal, Nat.ofDigitChars_toDigits (by decide) (by decide)]

theorem hex?_hex (width n : Nat) : hex? (hex width n) = some n := by
  have digits : (hex width n).all isDigit = true := List.all_eq_true.2 fun _ => isDigit_of_mem_hex
  rw [hex?, if_pos ⟨hex_ne_nil width n, digits⟩, value_hex]

theorem decimal_inj {m n : Nat} (h : decimal m = decimal n) : m = n := by
  have read := congrArg decimal? h
  rw [decimal?_decimal, decimal?_decimal] at read
  exact Option.some.inj read

theorem hex_inj {m n : Nat} (h : hex width m = hex width n) : m = n := by
  have read := congrArg hex? h
  rw [hex?_hex, hex?_hex] at read
  exact Option.some.inj read

theorem bytes_inj {a b : List UInt8} (h : bytes a = bytes b) : a = b := by
  refine flatMap_inj ?_ (fun _ => List.cons_ne_nil _ _) h
  intro x y r s same
  obtain ⟨first, rest⟩ := List.append_inj same rfl
  exact ⟨byte_inj first, rest⟩

theorem signed_inj {i j : Int} (h : signed i = signed j) : i = j := by
  unfold signed at h
  split at h <;> split at h
  · have size := decimal_inj (List.cons.inj h).2
    omega
  · nomatch h
  · nomatch h
  · have size := decimal_inj (List.cons.inj h).2
    omega

theorem not_mem_of_digits {u : List Char} {d : Char} (digits : ∀ c ∈ u, isDigit c) (h : isDigit d = false) :
    d ∉ u := by
  intro among
  simp [digits d among] at h

theorem not_mem_decimal {n : Nat} {d : Char} (h : isDigit d = false) : d ∉ decimal n :=
  not_mem_of_digits (fun _ => isDigit_of_mem_decimal) h

theorem not_mem_hex {n : Nat} {d : Char} (h : isDigit d = false) : d ∉ hex width n :=
  not_mem_of_digits (fun _ => isDigit_of_mem_hex) h

theorem not_mem_bytes {bs : List UInt8} {d : Char} (h : isDigit d = false) : d ∉ bytes bs :=
  not_mem_of_digits (fun _ => isDigit_of_mem_bytes) h

theorem not_mem_signed {i : Int} {d : Char} (plus : d ≠ '+') (minus : d ≠ '-') (h : isDigit d = false) :
    d ∉ signed i := by
  have size : d ∉ decimal i.natAbs := not_mem_decimal h
  unfold signed
  split
  · simp [minus, size]
  · simp [plus, size]

theorem decimal_append_inj {m n : Nat} (hr : Stops isDigit r) (hs : Stops isDigit s)
    (h : decimal m ++ r = decimal n ++ s) : m = n ∧ r = s :=
  (stretch_inj (fun _ => isDigit_of_mem_decimal) (fun _ => isDigit_of_mem_decimal) hr hs h).imp_left
    decimal_inj

theorem hex_append_inj {m n : Nat} (hr : Stops isDigit r) (hs : Stops isDigit s)
    (h : hex width m ++ r = hex width n ++ s) : m = n ∧ r = s :=
  (stretch_inj (fun _ => isDigit_of_mem_hex) (fun _ => isDigit_of_mem_hex) hr hs h).imp_left hex_inj

theorem signed_append_inj {i j : Int} (h : signed i ++ ' ' :: r = signed j ++ ' ' :: s) : i = j ∧ r = s := by
  have blank (k : Int) : ' ' ∉ signed k := not_mem_signed (by decide) (by decide) rfl
  obtain ⟨number, rest⟩ := stretch_inj_of_not_mem (blank i) (blank j) (stops_cons rfl) (stops_cons rfl) h
  exact ⟨signed_inj number, (List.cons.inj rest).2⟩

end EvmObject.Numeral
