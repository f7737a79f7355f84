import EvmObject.Container
import EvmObject.Container.Cursor.Lemmas
import Mathlib.Algebra.Ring.Nat
/-!
Decoding undoes encoding. Main statements: `Header.read_eq_ok` and `Container.read_eq_ok`, by which a
header and a container are read just where their encodings stand, if they are within the bounds, and
`decode_encode_inverse`.
-/
namespace EvmObject

variable {c d : Cursor}

namespace Header

theorem readMagic_eq_ok {a : Unit} : readMagic c = .ok a d ↔ c.Passes Layout.magic d := by
  constructor
  · intro h
    obtain ⟨n, rest⟩ := c
    match rest with
    | a :: b :: rest =>
      simp only [readMagic] at h
      split at h
      · rename_i same
        cases h
        exact ⟨by rw [← same]; rfl, rfl⟩
      · nomatch h
  · intro passes
    obtain ⟨n, rest, rfl, rfl⟩ := passes.exists_eq
    rfl

theorem readVersion_eq_ok {version : UInt8} :
    readVersion c = .ok version d ↔ version = Layout.version ∧ c.Passes [version] d := by
  simp only [readVersion, Reader.bind_eq_ok, Reader.when_eq_ok, Reader.pure_eq_ok, Reader.byte_eq_ok]
  constructor
  · rintro ⟨_, _, passes, same, rfl, rfl⟩
    exact ⟨same, passes⟩
  · rintro ⟨same, passes⟩
    exact ⟨_, _, passes, same, rfl, rfl⟩

theorem readKind_eq_ok {kind : UInt8} {a : Unit} : readKind kind c = .ok a d ↔ c.Passes [kind] d :=
  Reader.marker_eq_ok fun offset => .unexpectedKind offset kind

theorem readTerminator_eq_ok {a : Unit} :
    readTerminator c = .ok a d ↔ c.Passes [Layout.terminator] d :=
  Reader.marker_eq_ok .missingTerminator

theorem readCount_eq_ok {typeSize : UInt16} {count : Nat} : readCount typeSize c = .ok count d ↔
    1 ≤ count ∧ count ≤ 1024 ∧ typeSize.toNat = 4 * count ∧
      c.Passes (BigEndian.bytes16 (UInt16.ofNat count)) d := by
  simp only [readCount, Reader.bind_eq_ok, Reader.unless_eq_ok, Reader.when_eq_ok, Reader.pure_eq_ok,
    Reader.word16_eq_ok]
  simp only [Layout.maxCodeSections, Layout.typeEntrySize]
  constructor
  · rintro ⟨word, _, passes, inRange, size, rfl, rfl⟩
    rw [UInt16.ofNat_toNat]
    exact ⟨by omega, by omega, size, passes⟩
  · rintro ⟨pos, le, size, passes⟩
    have same : (UInt16.ofNat count).toNat = count := by
      simp only [UInt16.toNat_ofNat', Nat.reducePow]
      omega
    exact ⟨_, _, passes, by omega, by omega, same, rfl⟩

theorem readSizes_eq_ok {index count : Nat} {sizes : List UInt16} :
    readSizes index count c = .ok sizes d ↔ sizes.length = count ∧ (∀ size ∈ sizes, size ≠ 0) ∧
      c.Passes (sizes.flatMap BigEndian.bytes16) d := by
  induction count generalizing index sizes c d with
  | zero =>
    rw [readSizes, Reader.pure_eq_ok, List.length_eq_zero_iff]
    constructor
    · rintro ⟨rfl, rfl⟩
      exact ⟨rfl, nofun, Cursor.passes_nil.2 rfl⟩
    · rintro ⟨rfl, _, passes⟩
      exact ⟨rfl, Cursor.passes_nil.1 passes⟩
  | succ count ih =>
    simp only [readSizes, Reader.bind_eq_ok, Reader.unless_eq_ok, Reader.pure_eq_ok,
      Reader.word16_eq_ok, ih]
    constructor
    · rintro ⟨size, _, first, nonzero, rest, _, ⟨counted, others, later⟩, rfl, rfl⟩
      exact ⟨by rw [List.length_cons, counted], List.forall_mem_cons.2 ⟨nonzero, others⟩,
        Cursor.passes_append.2 ⟨_, first, later⟩⟩
    · rintro ⟨counted, nonzero, passes⟩
      obtain _ | ⟨size, rest⟩ := sizes
      · nomatch counted
      · obtain ⟨mid, first, later⟩ := Cursor.passes_append.1 passes
        obtain ⟨nonzero, others⟩ := List.forall_mem_cons.1 nonzero
        exact ⟨size, mid, first, nonzero, rest, _, ⟨Nat.succ.inj counted, others, later⟩, rfl, rfl⟩

/-- What a header has to be, whatever follows it. -/
structure WellFormed (h : Header) : Prop where
  version : h.version = 1
  count_pos : 1 ≤ h.codeSizes.length
  count_le : h.codeSizes.length ≤ 1024
  typeSize : h.typeSize.toNat = 4 * h.codeSizes.length
  nonzero : ∀ size ∈ h.codeSizes, size ≠ 0

theorem encode_eq (h : Header) : h.encode = Layout.magic ++ ([h.version] ++ ([Layout.typeKind] ++
    (BigEndian.bytes16 h.typeSize ++ ([Layout.codeKind] ++
    (BigEndian.bytes16 (UInt16.ofNat h.codeSizes.length) ++
    (h.codeSizes.flatMap BigEndian.bytes16 ++ ([Layout.dataKind] ++
    (BigEndian.bytes16 h.dataSize ++ [Layout.terminator])))))))) := by
  simp [encode]

theorem read_eq_ok {h : Header} : read c = .ok h d ↔ h.WellFormed ∧ c.Passes h.encode d := by
  simp only [read, Reader.bind_eq_ok, Reader.pure_eq_ok, readMagic_eq_ok, readVersion_eq_ok,
    readKind_eq_ok, Reader.word16_eq_ok, readCount_eq_ok, readSizes_eq_ok, readTerminator_eq_ok,
    encode_eq, Cursor.passes_append]
  constructor
  · rintro ⟨_, _, magic, _, _, ⟨version, byte⟩, _, _, kind₁, typeSize, _, types, _, _, kind₂, count, _,
      ⟨pos, le, size, counted⟩, sizes, _, ⟨rfl, nonzero, coded⟩, _, _, kind₃, dataSize, _, data, _, _,
      ends, rfl, rfl⟩
    exact ⟨⟨version, pos, le, size, nonzero⟩, _, magic, _, byte, _, kind₁, _, types, _, kind₂, _, counted,
      _, coded, _, kind₃, _, data, ends⟩
  · rintro ⟨fine, _, magic, _, byte, _, kind₁, _, types, _, kind₂, _, counted, _, coded, _, kind₃, _,
      data, ends⟩
    exact ⟨(), _, magic, _, _, ⟨fine.version, byte⟩, (), _, kind₁, _, _, types, (), _, kind₂, _, _,
      ⟨fine.count_pos, fine.count_le, fine.typeSize, counted⟩, _, _, ⟨rfl, fine.nonzero, coded⟩, (), _,
      kind₃, _, _, data, (), _, ends, rfl, rfl⟩

/-- A header within the bounds is read back whatever bytes follow it, and these are left. Conversely what is read
from the front of any bytes is a header within the bounds, and the bytes read are its encoding. -/
theorem read_self_delimiting :
    (∀ h : Header, h.WellFormed → ∀ rest,
      read (Cursor.ofBytes (h.encode ++ rest)) = .ok h ⟨h.length, rest⟩) ∧
    ∀ bytes h stop, read (Cursor.ofBytes bytes) = .ok h stop →
      h.WellFormed ∧ stop.offset = h.length ∧ bytes.take stop.offset = h.encode ∧
        stop.rest = bytes.drop stop.offset := by
  constructor
  · intro h fine rest
    refine read_eq_ok.2 ⟨fine, rfl, ?_⟩
    rw [length_encode]
    exact (Nat.zero_add _).symm
  · intro bytes h stop done
    obtain ⟨fine, front, offset⟩ := read_eq_ok.1 done
    have whole : bytes = h.encode ++ stop.rest := front
    have place : stop.offset = h.encode.length := offset.trans (Nat.zero_add _)
    refine ⟨fine, place.trans h.length_encode, ?_, ?_⟩
    · rw [place, whole, List.take_left]
    · rw [place, whole, List.drop_left]

/-- Two code sections, of four bytes and of one, and two bytes of data. -/
def twofold : Header := ⟨1, 8, [4, 1], 2⟩

/-- The header is read back in front of bytes that go on as it ends, and is what it was read from. -/
theorem read_twofold :
    read (Cursor.ofBytes (twofold.encode ++ [2, 0])) = .ok twofold ⟨17, [2, 0]⟩ ∧
      (twofold.encode ++ [2, 0]).take 17 = twofold.encode := by
  have fine : twofold.WellFormed := ⟨rfl, by decide, by decide, rfl, by simp [twofold]⟩
  obtain ⟨reads, read_from⟩ := read_self_delimiting
  have done := reads twofold fine [2, 0]
  exact ⟨done, (read_from _ _ _ done).2.2.1⟩

end Header

namespace CodeType

theorem read_eq_ok {t : CodeType} : read c = .ok t d ↔ c.Passes t.encode d := by
  have shape : t.encode = [t.inputs] ++ ([t.outputs] ++ BigEndian.bytes16 t.maxStackHeight) := rfl
  simp only [read, Reader.bind_eq_ok, Reader.pure_eq_ok, Reader.byte_eq_ok, Reader.word16_eq_ok, shape,
    Cursor.passes_append]
  constructor
  · rintro ⟨_, _, first, _, _, second, _, _, third, rfl, rfl⟩
    exact ⟨_, first, _, second, third⟩
  · rintro ⟨_, first, _, second, third⟩
    exact ⟨_, _, first, _, _, second, _, _, third, rfl, rfl⟩

theorem readTable_eq_ok {count : Nat} {types : List CodeType} : readTable count c = .ok types d ↔
    types.length = count ∧ c.Passes (types.flatMap encode) d := by
  induction count generalizing types c d with
  | zero =>
    rw [readTable, Reader.pure_eq_ok, List.length_eq_zero_iff]
    constructor
    · rintro ⟨rfl, rfl⟩
      exact ⟨rfl, Cursor.passes_nil.2 rfl⟩
    · rintro ⟨rfl, passes⟩
      exact ⟨rfl, Cursor.passes_nil.1 passes⟩
  | succ count ih =>
    simp only [readTable, Reader.bind_eq_ok, Reader.pure_eq_ok, read_eq_ok, ih]
    constructor
    · rintro ⟨t, _, first, rest, _, ⟨counted, later⟩, rfl, rfl⟩
      exact ⟨by rw [List.length_cons, counted], Cursor.passes_append.2 ⟨_, first, later⟩⟩
    · rintro ⟨counted, passes⟩
      obtain _ | ⟨t, rest⟩ := types
      · nomatch counted
      · obtain ⟨mid, first, later⟩ := Cursor.passes_append.1 passes
        exact ⟨t, mid, first, rest, _, ⟨Nat.succ.inj counted, later⟩, rfl, rfl⟩

end CodeType

namespace Container

theorem readCodes_eq_ok {sizes : List UInt16} {codes : List (Array UInt8)} :
    readCodes sizes c = .ok codes d ↔ codes.map Array.size = sizes.map UInt16.toNat ∧
      c.Passes (codes.flatMap Array.toList) d := by
  induction sizes generalizing codes c d with
  | nil =>
    rw [readCodes, Reader.pure_eq_ok, List.map_nil, List.map_eq_nil_iff]
    constructor
    · rintro ⟨rfl, rfl⟩
      exact ⟨rfl, Cursor.passes_nil.2 rfl⟩
    · rintro ⟨rfl, passes⟩
      exact ⟨rfl, Cursor.passes_nil.1 passes⟩
  | cons size sizes ih =>
    simp only [readCodes, Reader.bind_eq_ok, Reader.pure_eq_ok, Reader.take_eq_ok, ih]
    constructor
    · rintro ⟨code, _, ⟨long, first⟩, rest, _, ⟨counted, later⟩, rfl, rfl⟩
      exact ⟨by simp [counted, long], Cursor.passes_append.2 ⟨_, first, later⟩⟩
    · rintro ⟨counted, passes⟩
      obtain _ | ⟨code, rest⟩ := codes
      · nomatch counted
      · obtain ⟨mid, first, later⟩ := Cursor.passes_append.1 passes
        obtain ⟨long, counted⟩ := List.cons.inj counted
        exact ⟨code.toList, mid, ⟨long, first⟩, rest, _, ⟨counted, later⟩, rfl, rfl⟩

def body (k : Container) : List UInt8 :=
  k.sections.toList.flatMap (fun s => s.type.encode)
  ++ (k.sections.toList.flatMap (fun s => s.code.toList) ++ k.data)

theorem encode_eq (k : Container) : k.encode = k.header.encode ++ k.body := by
  simp only [encode, body, List.append_assoc]

def sizes (k : Container) : List Nat := k.sections.toList.map fun s => s.code.size

theorem length_body (k : Container) :
    k.body.length = 4 * k.sections.size + k.sizes.sum + k.data.length := by
  have types : (k.sections.toList.flatMap fun s => s.type.encode).length = k.sections.size * 4 := by
    simp [List.length_flatMap, CodeType.encode, List.map_const']
  have codes : (k.sections.toList.flatMap fun s => s.code.toList).length = k.sizes.sum := by
    simp [List.length_flatMap, sizes]
  rw [body, List.length_append, List.length_append, types, codes]
  omega

/-- What a container has to be for its sizes to fit the header. Each section has a type of its own. -/
structure WellFormed (k : Container) : Prop where
  version : k.version = 1
  sections_pos : 1 ≤ k.sections.size
  sections_le : k.sections.size ≤ 1024
  codes : ∀ s ∈ k.sections, 1 ≤ s.code.size ∧ s.code.size ≤ 65535
  data : k.data.length ≤ 65535

end Container

/-- The header tells the version and the sizes of the container. -/
structure Header.Declares (h : Header) (k : Container) : Prop where
  version : k.version = h.version
  codes : k.sections.toList.map (fun s => s.code.size) = h.codeSizes.map UInt16.toNat
  data : k.data.length = h.dataSize.toNat

variable {h : Header} {k : Container}

theorem CodeSection.map_zipWith_mk {types : List CodeType} {codes : List (Array UInt8)}
    (same : types.length = codes.length) :
    (types.zipWith CodeSection.mk codes).map type = types ∧
      (types.zipWith CodeSection.mk codes).map code = codes := by
  induction types generalizing codes with
  | nil => simpa [eq_comm] using same
  | cons t rest ih =>
    obtain _ | ⟨code, others⟩ := codes
    · nomatch same
    · obtain ⟨first, second⟩ := ih (Nat.succ.inj same)
      simp [first, second]

namespace Header

theorem Declares.length_codeSizes (declares : h.Declares k) : h.codeSizes.length = k.sections.size := by
  have counts := congrArg List.length declares.codes
  simpa using counts.symm

theorem Declares.length_body (fine : h.WellFormed) (declares : h.Declares k) :
    k.body.length = h.bodyLength := by
  have sizes : h.codeSizes.foldr (fun size n => size.toNat + n) 0 = (h.codeSizes.map UInt16.toNat).sum := by
    rw [List.sum_eq_foldr, List.foldr_map]
  rw [k.length_body, Container.sizes, declares.codes, declares.data, bodyLength, sizes, fine.typeSize,
    declares.length_codeSizes]

theorem Declares.wellFormed (fine : h.WellFormed) (declares : h.Declares k) : k.WellFormed := by
  have count := declares.length_codeSizes
  refine ⟨declares.version.trans fine.version, count ▸ fine.count_pos, count ▸ fine.count_le, ?_, ?_⟩
  · intro s member
    have listed : s.code.size ∈ h.codeSizes.map UInt16.toNat := by
      rw [← declares.codes]
      exact List.mem_map_of_mem (f := fun s : CodeSection => s.code.size) member.val
    obtain ⟨size, among, same⟩ := List.mem_map.1 listed
    have nonzero : size.toNat ≠ 0 := fun zero => fine.nonzero size among (UInt16.toNat.inj zero)
    have := size.toNat_lt
    omega
  · have := h.dataSize.toNat_lt
    rw [declares.data]
    omega

theorem Declares.eq_header (fine : h.WellFormed) (declares : h.Declares k) : h = k.header := by
  have typeSize : h.typeSize = UInt16.ofNat (k.sections.size * Layout.typeEntrySize) := by
    rw [← UInt16.ofNat_toNat (x := h.typeSize), fine.typeSize, declares.length_codeSizes, Nat.mul_comm,
      Layout.typeEntrySize]
  have codeSizes : h.codeSizes = k.sections.toList.map fun s => UInt16.ofNat s.code.size := by
    have again := congrArg (List.map UInt16.ofNat) declares.codes
    simpa [Function.comp_def] using again.symm
  have dataSize : h.dataSize = UInt16.ofNat k.data.length := by
    rw [declares.data, UInt16.ofNat_toNat]
  cases h
  simp only [Container.header, Header.mk.injEq]
  exact ⟨declares.version.symm, typeSize, codeSizes, dataSize⟩

end Header

namespace Container.WellFormed

theorem toNat_ofNat {n : Nat} (le : n ≤ 65535) : (UInt16.ofNat n).toNat = n := by
  simp only [UInt16.toNat_ofNat', Nat.reducePow]
  omega

theorem declares (fine : k.WellFormed) : k.header.Declares k where
  version := rfl
  codes := by
    simp only [header, List.map_map]
    refine List.map_congr_left ?_
    intro s member
    exact (toNat_ofNat (fine.codes s ⟨member⟩).2).symm
  data := (toNat_ofNat fine.data).symm

theorem header (fine : k.WellFormed) : k.header.WellFormed := by
  have pos := fine.sections_pos
  have le := fine.sections_le
  have count : k.header.codeSizes.length = k.sections.size := by simp [Container.header]
  refine ⟨fine.version, by omega, by omega, ?_, ?_⟩
  · have size : k.header.typeSize.toNat = k.sections.size * 4 :=
      toNat_ofNat (by change k.sections.size * 4 ≤ 65535; omega)
    omega
  · simp only [Container.header, List.mem_map]
    rintro _ ⟨s, member, rfl⟩ zero
    have bounds := fine.codes s ⟨member⟩
    have size := toNat_ofNat bounds.2
    rw [zero] at size
    change 0 = s.code.size at size
    omega

end Container.WellFormed

namespace Container

theorem readBody_eq_ok : readBody h c = .ok k d ↔ h.Declares k ∧ c.Passes k.body d := by
  simp only [readBody, Reader.bind_eq_ok, Reader.pure_eq_ok, CodeType.readTable_eq_ok, readCodes_eq_ok,
    Reader.take_eq_ok, body, Cursor.passes_append]
  constructor
  · rintro ⟨types, _, ⟨counted, table⟩, codes, _, ⟨sizes, coded⟩, data, _, ⟨long, rest⟩, rfl, rfl⟩
    have same : types.length = codes.length := by
      have counts := congrArg List.length sizes
      rw [List.length_map, List.length_map] at counts
      rw [counted, counts]
    obtain ⟨first, second⟩ := CodeSection.map_zipWith_mk same
    rw [← first, List.flatMap_map] at table
    rw [← second, List.flatMap_map] at coded
    rw [← second, List.map_map] at sizes
    exact ⟨⟨rfl, sizes, long⟩, _, table, _, coded, rest⟩
  · rintro ⟨declares, _, table, _, coded, rest⟩
    have counted : (k.sections.toList.map CodeSection.type).length = h.codeSizes.length := by
      rw [List.length_map, Array.length_toList, declares.length_codeSizes]
    have sizes : (k.sections.toList.map CodeSection.code).map Array.size
        = h.codeSizes.map UInt16.toNat := by
      rw [List.map_map]
      exact declares.codes
    rw [← List.flatMap_map CodeSection.type CodeType.encode] at table
    rw [← List.flatMap_map CodeSection.code Array.toList] at coded
    refine ⟨_, _, ⟨counted, table⟩, _, _, ⟨sizes, coded⟩, k.data, _, ⟨declares.data, rest⟩, ?_, rfl⟩
    have version := declares.version.symm
    cases k
    simpa [List.zipWith_map] using version

theorem read_eq_ok : read c = .ok k d ↔ k.WellFormed ∧ c.Passes k.encode d ∧ d.rest = [] := by
  have remaining : ∀ c n e, Reader.remaining c = .ok n e ↔ c.rest.length = n ∧ c = e := by
    simp [Reader.remaining]
  simp only [read, Reader.bind_eq_ok, Header.read_eq_ok, Reader.when_eq_ok, readBody_eq_ok, encode_eq,
    Cursor.passes_append, remaining]
  constructor
  · rintro ⟨h, mid, ⟨fine, first⟩, _, _, ⟨rfl, rfl⟩, counted, declares, second⟩
    obtain rfl := declares.eq_header fine
    rw [second.rest, List.length_append, declares.length_body fine] at counted
    exact ⟨declares.wellFormed fine, ⟨mid, first, second⟩, List.length_eq_zero_iff.1 (by omega)⟩
  · rintro ⟨fine, ⟨mid, first, second⟩, ends⟩
    have counted : mid.rest.length = k.header.bodyLength := by
      rw [second.rest, ends, List.append_nil, fine.declares.length_body fine.header]
    exact ⟨_, mid, ⟨fine.header, first⟩, _, _, ⟨rfl, rfl⟩, counted, fine.declares, second⟩

theorem decode_eq_ok {bytes : List UInt8} : decode bytes = .ok k ↔ k.WellFormed ∧ k.encode = bytes := by
  rw [decode, Reader.answer_eq_ok]
  simp only [read_eq_ok]
  constructor
  · rintro ⟨stop, fine, passes, ends⟩
    have whole := passes.rest
    rw [ends, List.append_nil] at whole
    exact ⟨fine, whole.symm⟩
  · rintro ⟨fine, rfl⟩
    exact ⟨⟨k.encode.length, []⟩, fine, ⟨(List.append_nil _).symm, (Nat.zero_add _).symm⟩, rfl⟩

/-- Decoding and encoding are inverse to each other between the byte strings that are accepted and the
containers within the bounds: just the encodings of these are accepted, each container from one only. -/
theorem decode_encode_inverse :
    (∀ bytes k, decode bytes = .ok k → k.WellFormed ∧ k.encode = bytes) ∧
    (∀ k : Container, k.WellFormed → decode k.encode = .ok k) ∧
    (∀ bytes, (∃ k, decode bytes = .ok k) ↔ ∃ k : Container, k.WellFormed ∧ k.encode = bytes) ∧
    ∀ bytes other k, decode bytes = .ok k → decode other = .ok k → other = bytes := by
  refine ⟨?_, ?_, ?_, ?_⟩
  · intro bytes k decoded
    exact decode_eq_ok.1 decoded
  · intro k fine
    exact decode_eq_ok.2 ⟨fine, rfl⟩
  · simp only [decode_eq_ok, implies_true]
  · intro bytes other k decoded again
    rw [← (decode_eq_ok.1 decoded).2, ← (decode_eq_ok.1 again).2]

/-- The entry calls the second section, which returns at once; two bytes of data. -/
def errand : Container :=
  .assemble #[⟨⟨0, 0, 0⟩, #[0xB0, 0, 1, 0x00]⟩, ⟨⟨0, 0, 0⟩, #[0xB1]⟩] [7, 9]

/-- The errand, written and read back. -/
theorem decode_encode_errand : errand.WellFormed ∧ decode errand.encode = .ok errand := by
  have fine : errand.WellFormed := ⟨rfl, by decide, by decide, by decide, by decide⟩
  exact ⟨fine, decode_encode_inverse.2.1 errand fine⟩

end Container
end EvmObject
