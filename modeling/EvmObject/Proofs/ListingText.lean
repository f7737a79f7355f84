import EvmObject.Proofs.LineText
/-!
Reading the text of a listing, without a look at how it was written: its lines, the words of a line, and the
section and the offset in front of a line of code. Main statement: a line of code is read as its place and the
words that it shows there (`Line.StandsAt.place?_text`).
-/
namespace EvmObject

section

variable {α β : Type} {d : Char} {u r : List Char}

theorem splitOn_append_of_stops (hu : d ∉ u) (hr : Stops (· != d) r) :
    ∃ pieces, (u ++ r).splitOn d = u :: pieces := by
  cases r with
  | nil => exact ⟨[], by rw [List.append_nil, List.splitOn_eq_singleton hu]⟩
  | cons a r =>
    obtain rfl : a = d := by simpa using hr a rfl
    exact ⟨r.splitOn a, List.splitOn_append_cons_self_of_not_mem hu r⟩

/-- What stands at one index only is found in a flattened list by that index. -/
theorem flatMap_zipIdx_of_index (f : α → List β) (l : List α) (k i : Nat) :
    (l.zipIdx k).flatMap (fun a => if a.2 = k + i then f a.1 else []) = l[i]?.elim [] f := by
  induction l generalizing k i with
  | nil => rfl
  | cons a l ih =>
    rw [List.zipIdx_cons, List.flatMap_cons]
    cases i with
    | zero =>
      have behind : (l.zipIdx (k + 1)).flatMap (fun a => if a.2 = k + 0 then f a.1 else []) = [] := by
        refine List.flatMap_eq_nil_iff.2 ?_
        intro b member
        have later := (List.mk_mem_zipIdx_iff_le_and_getElem?_sub.1 member).1
        exact if_neg (by omega)
      rw [behind, List.append_nil]
      exact if_pos rfl
    | succ i =>
      have rest := ih (k + 1) i
      rw [Nat.add_right_comm] at rest
      rw [if_neg (by simp), List.nil_append]
      exact rest

end

namespace Listing

/-- The lines of a text, each closed by a newline. -/
def lines (text : List Char) : List (List Char) :=
  (text.splitOn '\n').dropLast

def words (line : List Char) : List (List Char) :=
  line.splitOn ' '

/-- The section and the offset that a line begins with, and the words behind them. Sections are numbered in
decimal, offsets in hexadecimal; two blanks follow. -/
def place? (line : List Char) : Option (Nat × Nat × List (List Char)) :=
  match words line with
  | place :: [] :: shown =>
    match place.splitOn ':' with
    | [index, offset] =>
      (Numeral.decimal? index).bind fun i => (Numeral.hex? offset).map fun o => (i, o, shown)
    | _ => none
  | _ => none

def read? (index : Nat) (line : List Char) : Option (Nat × List (List Char)) :=
  (place? line).bind fun p => if p.1 = index then some p.2 else none

/-- All that a text lists for the section at `index`: offsets, each with the words behind it. -/
def entries (index : Nat) (text : List Char) : List (Nat × List (List Char)) :=
  (lines text).filterMap (read? index)

variable {u v rest : List Char} {index : Nat}

theorem lines_flatMap {ls : List (List Char)} (h : ∀ l ∈ ls, '\n' ∉ l) :
    lines (ls.flatMap fun l => l ++ ['\n']) = ls := by
  induction ls with
  | nil => rfl
  | cons l ls ih =>
    obtain ⟨first, others⟩ := List.forall_mem_cons.1 h
    have split := List.splitOn_append_cons_self_of_not_mem first (ls.flatMap fun l => l ++ ['\n'])
    rw [lines, List.flatMap_cons, List.append_assoc, List.singleton_append, split,
      List.dropLast_cons_of_ne_nil (List.splitOn_ne_nil _ _)]
    exact congrArg (l :: ·) (ih others)

theorem place?_eq_none (hu : ' ' ∉ u) (hv : ' ' ∉ v) (some_word : v ≠ []) :
    place? (u ++ ' ' :: v ++ ' ' :: rest) = none := by
  have split : words (u ++ ' ' :: v ++ ' ' :: rest) = u :: v :: words rest := by
    rw [words, List.append_assoc, List.cons_append, List.splitOn_append_cons_self_of_not_mem hu,
      List.splitOn_append_cons_self_of_not_mem hv]
    rfl
  obtain ⟨a, v, rfl⟩ := List.exists_cons_of_ne_nil some_word
  rw [place?, split]

end Listing

namespace Line

variable {index pc : Nat} {line : Line}

theorem StandsAt.place?_text (h : line.StandsAt index pc) :
    Listing.place? line.text = some (index, pc, Listing.words line.shown) := by
  have index_blank : ' ' ∉ Numeral.decimal index := Numeral.not_mem_decimal rfl
  have index_colon : ':' ∉ Numeral.decimal index := Numeral.not_mem_decimal rfl
  have offset_blank : ' ' ∉ Numeral.hex 4 pc := Numeral.not_mem_hex rfl
  have offset_colon : ':' ∉ Numeral.hex 4 pc := Numeral.not_mem_hex rfl
  have front : ' ' ∉ Numeral.decimal index ++ ':' :: Numeral.hex 4 pc := by
    simp [index_blank, offset_blank]
  have pieces : Listing.words line.text =
      (Numeral.decimal index ++ ':' :: Numeral.hex 4 pc) :: [] :: Listing.words line.shown := by
    rw [Listing.words, h.text_eq, List.splitOn_append_cons_self_of_not_mem front]
    exact congrArg _ (List.splitOn_append_cons_self_of_not_mem List.not_mem_nil line.shown)
  have numerals : (Numeral.decimal index ++ ':' :: Numeral.hex 4 pc).splitOn ':' =
      [Numeral.decimal index, Numeral.hex 4 pc] := by
    rw [List.splitOn_append_cons_self_of_not_mem index_colon, List.splitOn_eq_singleton offset_colon]
  rw [Listing.place?, pieces]
  dsimp only
  rw [numerals]
  dsimp only
  rw [Numeral.decimal?_decimal, Numeral.hex?_hex]
  rfl

theorem place?_text_heading (i : Nat) (t : CodeType) : Listing.place? (heading i t).text = none := by
  have number : ' ' ∉ Numeral.decimal i := Numeral.not_mem_decimal rfl
  rw [text_heading]
  simp only [List.append_assoc]
  exact Listing.place?_eq_none (u := "section".toList) (by decide) number (Numeral.decimal_ne_nil i)

theorem place?_text_data (length : Nat) : Listing.place? (data length).text = none := by
  have number : ' ' ∉ Numeral.decimal length := Numeral.not_mem_decimal rfl
  rw [text_data]
  exact Listing.place?_eq_none (u := "data:".toList) (by decide) number (Numeral.decimal_ne_nil length)

end Line
end EvmObject
