import EvmObject.Proofs.Codec
/-!
Containers whose sizes do not fit the header. An encoding keeps the low sixteen bits of each size and of the
count of code sections, so that what comes behind a count that wrapped could be read as something else. Main
statements: the encoding of a container within the bounds is that of no other container (`eq_of_encode_eq`),
and so what is assembled is read back as it was or not at all (`decode_assemble`).
-/
namespace EvmObject

theorem sum_wrapped_le (sizes : List Nat) : (sizes.map (· % 2 ^ 16)).sum ≤ sizes.sum := by
  induction sizes with
  | nil => exact Nat.le_refl _
  | cons size rest ih =>
    have wrapped := Nat.mod_le size (2 ^ 16)
    simp only [List.map_cons, List.sum_cons]
    omega

theorem wrapped_eq_of_sum (sizes : List Nat) (kept : sizes.sum ≤ (sizes.map (· % 2 ^ 16)).sum) :
    sizes.map (· % 2 ^ 16) = sizes := by
  induction sizes with
  | nil => rfl
  | cons size rest ih =>
    have wrapped := Nat.mod_le size (2 ^ 16)
    have others := sum_wrapped_le rest
    simp only [List.map_cons, List.sum_cons] at kept ⊢
    rw [ih (by omega)]
    exact congrArg (· :: rest) (by omega)

theorem wrapped_eq_of_ofNat {m n : Nat} (same : UInt16.ofNat m = UInt16.ofNat n) :
    m % 2 ^ 16 = n % 2 ^ 16 := by
  simpa only [UInt16.toNat_ofNat'] using congrArg UInt16.toNat same

theorem BigEndian.take_of_flatMap_bytes16 {xs ys : List UInt16} {u v : List UInt8}
    (fewer : ys.length ≤ xs.length)
    (same : xs.flatMap bytes16 ++ u = ys.flatMap bytes16 ++ v) :
    xs.take ys.length = ys ∧ (xs.drop ys.length).flatMap bytes16 ++ u = v := by
  induction ys generalizing xs with
  | nil => exact ⟨rfl, same⟩
  | cons y ys ih =>
    obtain _ | ⟨x, xs⟩ := xs
    · nomatch fewer
    · simp only [List.flatMap_cons, List.append_assoc] at same
      obtain ⟨first, rest⟩ := List.append_inj same rfl
      obtain ⟨front, behind⟩ := ih (Nat.le_of_succ_le_succ fewer) rest
      exact ⟨by rw [List.length_cons, List.take_succ_cons, front, bytes16_inj first], behind⟩

namespace Container

variable {k other : Container}

theorem length_sizes (k : Container) : k.sizes.length = k.sections.size := by simp [sizes]

theorem codeSizes_header (k : Container) : k.header.codeSizes = k.sizes.map UInt16.ofNat := by
  simp [header, sizes]

theorem length_encode (k : Container) :
    k.encode.length = 13 + 6 * k.sections.size + k.sizes.sum + k.data.length := by
  rw [encode_eq, List.length_append, Header.length_encode, Header.length, length_body, codeSizes_header,
    List.length_map, length_sizes]
  omega

def behindSizes (k : Container) : List UInt8 :=
  [Layout.dataKind] ++ (BigEndian.bytes16 (UInt16.ofNat k.data.length) ++ ([Layout.terminator] ++ k.body))

theorem parts_of_encode_eq (same : other.encode = k.encode) :
    other.version = k.version ∧
      UInt16.ofNat other.sections.size = UInt16.ofNat k.sections.size ∧
      (other.sizes.map UInt16.ofNat).flatMap BigEndian.bytes16 ++ other.behindSizes
        = (k.sizes.map UInt16.ofNat).flatMap BigEndian.bytes16 ++ k.behindSizes := by
  simp only [encode_eq, Header.encode_eq, codeSizes_header, List.length_map, length_sizes,
    List.append_assoc] at same
  obtain ⟨_, same⟩ := List.append_inj same rfl
  obtain ⟨version, same⟩ := List.append_inj same rfl
  obtain ⟨_, same⟩ := List.append_inj same rfl
  obtain ⟨_, same⟩ := List.append_inj same rfl
  obtain ⟨_, same⟩ := List.append_inj same rfl
  obtain ⟨count, rest⟩ := List.append_inj same rfl
  exact ⟨(List.cons.inj version).1, BigEndian.bytes16_inj count, rest⟩

theorem WellFormed.wrapped_sizes (fine : k.WellFormed) : k.sizes.map (· % 2 ^ 16) = k.sizes := by
  have each : ∀ size ∈ k.sizes, size % 2 ^ 16 = id size := by
    intro size member
    obtain ⟨s, among, rfl⟩ := List.mem_map.1 member
    exact Nat.mod_eq_of_lt (Nat.lt_succ_of_le (fine.codes s ⟨among⟩).2)
  rw [List.map_congr_left each, List.map_id]

/-- A container with the encoding of one within the bounds has as many sections: if the count wrapped, the
entries of the type table alone would be more bytes than all the data that could stand for them. -/
theorem size_of_encode_eq (fine : k.WellFormed) (same : other.encode = k.encode) :
    other.sections.size = k.sections.size ∧ other.sizes.map (· % 2 ^ 16) = k.sizes := by
  obtain ⟨_, count, fields⟩ := parts_of_encode_eq same
  have count := wrapped_eq_of_ofNat count
  have le := fine.sections_le
  have data := fine.data
  have fewer : k.sizes.length ≤ other.sizes.length := by
    have := Nat.mod_le other.sections.size (2 ^ 16)
    rw [length_sizes, length_sizes]
    omega
  have front : (other.sizes.take k.sizes.length).map (· % 2 ^ 16) = k.sizes := by
    have words := (BigEndian.take_of_flatMap_bytes16 (by simpa using fewer) fields).1
    have numbers := congrArg (List.map UInt16.toNat) words
    rw [List.length_map, ← List.map_take, List.map_map, List.map_map] at numbers
    have cut : UInt16.toNat ∘ UInt16.ofNat = fun n : Nat => n % 2 ^ 16 := rfl
    rwa [cut, fine.wrapped_sizes] at numbers
  have sums : k.sizes.sum ≤ other.sizes.sum := by
    have parts := congrArg List.sum (List.take_append_drop k.sizes.length other.sizes)
    have wrapped := sum_wrapped_le (other.sizes.take k.sizes.length)
    rw [List.sum_append] at parts
    rw [front] at wrapped
    omega
  have total := congrArg List.length same
  rw [length_encode, length_encode] at total
  have equal : other.sections.size = k.sections.size := by omega
  rw [length_sizes, ← equal, ← length_sizes, List.take_length] at front
  exact ⟨equal, front⟩

theorem eq_of_encode_eq (fine : k.WellFormed) (same : other.encode = k.encode) : other = k := by
  obtain ⟨version, _, fields⟩ := parts_of_encode_eq same
  obtain ⟨equal, wrapped⟩ := size_of_encode_eq fine same
  have bound := fine.data
  have dataSize : other.data.length % 2 ^ 16 = k.data.length % 2 ^ 16 := by
    have counted : ((other.sizes.map UInt16.ofNat).flatMap BigEndian.bytes16).length
        = ((k.sizes.map UInt16.ofNat).flatMap BigEndian.bytes16).length := by
      simp [BigEndian.length_flatMap_bytes16 (fun size => size), length_sizes, equal]
    obtain ⟨_, behind⟩ := List.append_inj fields counted
    obtain ⟨_, behind⟩ := List.append_inj behind rfl
    exact wrapped_eq_of_ofNat (BigEndian.bytes16_inj (List.append_inj behind rfl).1)
  have total := congrArg List.length same
  rw [length_encode, length_encode, equal] at total
  have cut := sum_wrapped_le other.sizes
  rw [wrapped] at cut
  have data : other.data.length = k.data.length := by omega
  have sizes : other.sizes = k.sizes := by
    rw [← wrapped_eq_of_sum other.sizes (by rw [wrapped]; omega), wrapped]
  have within : other.WellFormed := by
    refine ⟨version.trans fine.version, equal ▸ fine.sections_pos, equal ▸ fine.sections_le, ?_,
      data ▸ fine.data⟩
    intro s member
    have among : s.code.size ∈ k.sizes := by
      rw [← sizes]
      exact List.mem_map_of_mem (f := fun s : CodeSection => s.code.size) member.val
    obtain ⟨s', among', same'⟩ := List.mem_map.1 among
    rw [← same']
    exact fine.codes s' ⟨among'⟩
  have decoded := decode_eq_ok.2 ⟨within, same⟩
  exact Except.ok.inj (decoded.symm.trans (decode_eq_ok.2 ⟨fine, rfl⟩))

/-- What is assembled from sections and data of any count and size is read back just if all sizes are within
the bounds, and then as it was. -/
theorem decode_assemble (sections : Array CodeSection) (data : List UInt8) :
    ((∃ k, decode (assemble sections data).encode = .ok k) ↔
      1 ≤ sections.size ∧ sections.size ≤ 1024 ∧
        (∀ s ∈ sections, 1 ≤ s.code.size ∧ s.code.size ≤ 65535) ∧ data.length ≤ 65535) ∧
    ∀ k, decode (assemble sections data).encode = .ok k →
      k.version = 1 ∧ k.sections = sections ∧ k.data = data := by
  have read : ∀ k, decode (assemble sections data).encode = .ok k →
      k.WellFormed ∧ assemble sections data = k := by
    intro k decoded
    obtain ⟨fine, same⟩ := decode_eq_ok.1 decoded
    exact ⟨fine, eq_of_encode_eq fine same.symm⟩
  refine ⟨⟨?_, ?_⟩, ?_⟩
  · rintro ⟨k, decoded⟩
    obtain ⟨fine, rfl⟩ := read k decoded
    exact ⟨fine.sections_pos, fine.sections_le, fine.codes, fine.data⟩
  · rintro ⟨pos, le, codes, long⟩
    have fine : (assemble sections data).WellFormed := ⟨rfl, pos, le, codes, long⟩
    exact ⟨_, decode_eq_ok.2 ⟨fine, rfl⟩⟩
  · intro k decoded
    obtain ⟨fine, rfl⟩ := read k decoded
    exact ⟨rfl, rfl, rfl⟩

/-- The errand is read back with its two sections and its two bytes of data. -/
theorem decode_assemble_errand : ∃ k, decode errand.encode = .ok k ∧
    k.version = 1 ∧ k.sections = errand.sections ∧ k.data = [7, 9] := by
  obtain ⟨accepted, parts⟩ := decode_assemble errand.sections [7, 9]
  obtain ⟨k, decoded⟩ := accepted.2 ⟨by decide, by decide, by decide, by decide⟩
  exact ⟨k, decoded, parts k decoded⟩

end Container
end EvmObject
