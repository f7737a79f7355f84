import EvmObject.Proofs.Codec
/-!
Decoding goes from left to right, and the first failure counts. A rule that a header breaks is broken whatever
follows the bytes that were read. Of a container that is accepted, no beginning is accepted, and each is refused at
the field that it cuts; nor is it accepted with bytes behind it. Main statement: `decode_first_failure`.
-/
namespace EvmObject

variable {α β : Type} {start stop : Cursor} {e : LayoutError} {bytes : List UInt8}

namespace Reader

variable {r : Reader α} {f : α → Reader β} {a : α} {b : β} {us vs : List (List UInt8)}

/-- What the reader comes to here, a want of bytes apart, depends on those bytes alone that it takes. -/
structure Local (r : Reader α) (start : Cursor) : Prop where
  ok : ∀ {a stop}, r start = .ok a stop → ∃ front, start.Passes front stop ∧
    ∀ rest, r ⟨start.offset, front ++ rest⟩ = .ok a ⟨stop.offset, rest⟩
  error : ∀ {e stop}, r start = .error e stop → (∀ n, e ≠ .unexpectedEnd n) →
    ∃ front, start.Passes front stop ∧
      ∀ rest, r ⟨start.offset, front ++ rest⟩ = .error e ⟨stop.offset, rest⟩

theorem local_pure (a : α) : (pure a : Reader α).Local start where
  ok := by
    rintro _ _ ⟨⟩
    exact ⟨[], Cursor.passes_nil.2 rfl, fun _ => rfl⟩
  error := by rintro _ _ ⟨⟩

theorem local_throw (e : LayoutError) : (throw e : Reader α).Local start where
  ok := by rintro _ _ ⟨⟩
  error := by
    rintro _ _ ⟨⟩ _
    exact ⟨[], Cursor.passes_nil.2 rfl, fun _ => rfl⟩

theorem local_offset : offset.Local start where
  ok := by
    rintro _ _ ⟨⟩
    exact ⟨[], Cursor.passes_nil.2 rfl, fun _ => rfl⟩
  error := by rintro _ _ ⟨⟩

theorem local_byte : byte.Local start := by
  obtain ⟨n, _ | ⟨b, rest⟩⟩ := start
  · exact ⟨by rintro _ _ ⟨⟩, by rintro _ _ ⟨⟩ other; exact absurd rfl (other n)⟩
  · refine ⟨?_, by rintro _ _ ⟨⟩⟩
    rintro _ _ ⟨⟩
    exact ⟨[b], ⟨rfl, rfl⟩, fun _ => rfl⟩

theorem local_word16 : word16.Local start := by
  obtain ⟨n, _ | ⟨hi, _ | ⟨lo, rest⟩⟩⟩ := start
  · exact ⟨by rintro _ _ ⟨⟩, by rintro _ _ ⟨⟩ other; exact absurd rfl (other n)⟩
  · exact ⟨by rintro _ _ ⟨⟩, by rintro _ _ ⟨⟩ other; exact absurd rfl (other n)⟩
  · refine ⟨?_, by rintro _ _ ⟨⟩⟩
    rintro _ _ ⟨⟩
    exact ⟨[hi, lo], ⟨rfl, rfl⟩, fun _ => rfl⟩

theorem Local.bind (first : r.Local start) (later : ∀ a mid, (f a).Local mid) : (r >>= f).Local start where
  ok := by
    intro b stop h
    obtain ⟨a, mid, took, went⟩ := bind_eq_ok.1 h
    obtain ⟨u, passes, again⟩ := first.ok took
    obtain ⟨v, passes', again'⟩ := (later a mid).ok went
    refine ⟨u ++ v, Cursor.passes_append.2 ⟨mid, passes, passes'⟩, fun rest => ?_⟩
    rw [List.append_assoc]
    exact bind_eq_ok.2 ⟨a, _, again (v ++ rest), again' rest⟩
  error := by
    intro e stop h other
    obtain failed | ⟨a, mid, took, failed⟩ := bind_eq_error.1 h
    · obtain ⟨u, passes, again⟩ := first.error failed other
      exact ⟨u, passes, fun rest => bind_eq_error.2 (.inl (again rest))⟩
    · obtain ⟨u, passes, again⟩ := first.ok took
      obtain ⟨v, passes', again'⟩ := (later a mid).error failed other
      refine ⟨u ++ v, Cursor.passes_append.2 ⟨mid, passes, passes'⟩, fun rest => ?_⟩
      rw [List.append_assoc]
      exact bind_eq_error.2 (.inr ⟨a, _, again (v ++ rest), again' rest⟩)

theorem Local.ite {p : Prop} [Decidable p] {q : Reader α} (yes : r.Local start) (no : q.Local start) :
    (if p then r else q).Local start := by
  split
  · exact yes
  · exact no

/-- The reader takes `a` from these fields, and where one of them is cut short it fails at its start. -/
structure Reads (r : Reader α) (a : α) (fields : List (List UInt8)) : Prop where
  whole : ∀ n rest, r ⟨n, fields.flatten ++ rest⟩ = .ok a ⟨n + fields.flatten.length, rest⟩
  cut : ∀ {before field after part}, fields = before ++ field :: after → part.length < field.length → ∀ n,
    r ⟨n, before.flatten ++ part⟩
      = .error (.unexpectedEnd (n + before.flatten.length)) ⟨n + before.flatten.length, part⟩

theorem reads_pure (a : α) : (pure a : Reader α).Reads a [] where
  whole _ _ := rfl
  cut split := absurd split (by simp)

theorem reads_field {field : List UInt8}
    (whole : ∀ n rest, r ⟨n, field ++ rest⟩ = .ok a ⟨n + field.length, rest⟩)
    (cut : ∀ {part : List UInt8}, part.length < field.length →
      ∀ n, r ⟨n, part⟩ = .error (.unexpectedEnd n) ⟨n, part⟩) :
    r.Reads a [field] where
  whole n rest := by
    rw [List.flatten_singleton]
    exact whole n rest
  cut {before field' after part} split short n := by
    cases before with
    | nil =>
      obtain ⟨rfl, _⟩ := List.cons.inj split
      exact cut short n
    | cons _ _ => simp at split

theorem reads_single {x : UInt8} (whole : ∀ n rest, r ⟨n, x :: rest⟩ = .ok a ⟨n + 1, rest⟩)
    (none : ∀ n, r ⟨n, []⟩ = .error (.unexpectedEnd n) ⟨n, []⟩) : r.Reads a [[x]] := by
  refine reads_field whole ?_
  intro part short n
  obtain rfl := List.length_eq_zero_iff.1 (Nat.lt_one_iff.1 short)
  exact none n

theorem reads_word16 (w : UInt16) : word16.Reads w [BigEndian.bytes16 w] :=
  reads_field (fun n rest => word16_bytes16 n w rest) word16_short

theorem Reads.bind (first : r.Reads a us) (later : (f a).Reads b vs) : (r >>= f).Reads b (us ++ vs) where
  whole n rest := by
    rw [List.flatten_append, List.append_assoc, List.length_append, ← Nat.add_assoc]
    exact bind_eq_ok.2 ⟨a, _, first.whole n _, later.whole _ rest⟩
  cut {before field after part} split short n := by
    have second (before : List (List UInt8)) (split : vs = before ++ field :: after) :
        (r >>= f) ⟨n, (us ++ before).flatten ++ part⟩ = .error (.unexpectedEnd (n + (us ++ before).flatten.length))
          ⟨n + (us ++ before).flatten.length, part⟩ := by
      rw [List.flatten_append, List.append_assoc, List.length_append, ← Nat.add_assoc]
      exact bind_eq_error.2 (.inr ⟨a, _, first.whole n _, later.cut split short _⟩)
    -- The field that is cut is one of the second reader's or of the first one's. If no other of the first one's
    -- follows the fields before it, it is the second reader's first.
    obtain ⟨more, rfl, split'⟩ | ⟨rest, split, split'⟩ := List.append_eq_append_iff.1 split
    · exact second more split'
    · cases rest with
      | nil =>
        rw [List.append_nil] at split
        subst split
        have there := second [] split'.symm
        rwa [List.append_nil] at there
      | cons _ _ =>
        obtain ⟨rfl, _⟩ := List.cons.inj split'
        exact bind_eq_error.2 (.inl (first.cut split short n))

end Reader

open Reader

namespace Header

variable {h : Header}

theorem local_readMagic (long : 2 ≤ start.rest.length) : readMagic.Local start := by
  obtain ⟨n, _ | ⟨a, _ | ⟨b, rest⟩⟩⟩ := start
  · exact absurd long (by simp)
  · exact absurd long (by simp)
  · have result (rest : List UInt8) : readMagic ⟨n, a :: b :: rest⟩ =
        if [a, b] = Layout.magic then .ok () ⟨n + 2, rest⟩ else .error .badMagic ⟨n + 2, rest⟩ := rfl
    by_cases magic : [a, b] = Layout.magic
    · simp only [if_pos magic] at result
      refine ⟨?_, by simp [result]⟩
      intro _ stop h
      cases (result rest).symm.trans h
      exact ⟨[a, b], ⟨rfl, rfl⟩, result⟩
    · simp only [if_neg magic] at result
      refine ⟨by simp [result], ?_⟩
      intro e stop h _
      cases (result rest).symm.trans h
      exact ⟨[a, b], ⟨rfl, rfl⟩, result⟩

theorem local_readVersion : readVersion.Local start :=
  local_byte.bind fun _ _ => .ite (local_pure _) (local_throw _)

theorem local_readKind (expected : UInt8) : (readKind expected).Local start :=
  local_offset.bind fun _ _ => local_byte.bind fun _ _ => .ite (local_pure _) (local_throw _)

theorem local_readCount (typeSize : UInt16) : (readCount typeSize).Local start :=
  local_word16.bind fun _ _ => .ite (local_throw _) (.ite (local_pure _) (local_throw _))

theorem local_readSizes (index count : Nat) : (readSizes index count).Local start := by
  induction count generalizing index start with
  | zero => exact local_pure []
  | succ count ih =>
    exact local_word16.bind fun _ _ => .ite (local_throw _) ((ih (index + 1)).bind fun _ _ => local_pure _)

theorem local_readTerminator : readTerminator.Local start :=
  local_offset.bind fun _ _ => local_byte.bind fun _ _ => .ite (local_pure _) (local_throw _)

theorem local_read (long : 2 ≤ start.rest.length) : read.Local start := by
  refine (local_readMagic long).bind fun _ _ => local_readVersion.bind fun _ _ => ?_
  refine (local_readKind _).bind fun _ _ => local_word16.bind fun _ _ => ?_
  refine (local_readKind _).bind fun _ _ => (local_readCount _).bind fun _ _ => ?_
  refine (local_readSizes _ _).bind fun _ _ => (local_readKind _).bind fun _ _ => ?_
  exact local_word16.bind fun _ _ => local_readTerminator.bind fun _ _ => local_pure _

def fields (h : Header) : List (List UInt8) :=
  [[h.version], [Layout.typeKind], BigEndian.bytes16 h.typeSize,
    [Layout.codeKind], BigEndian.bytes16 (UInt16.ofNat h.codeSizes.length)]
  ++ (h.codeSizes.map BigEndian.bytes16
  ++ [[Layout.dataKind], BigEndian.bytes16 h.dataSize, [Layout.terminator]])

/-- The first `n` bytes hold what is written before the field that starts at `start`, and not all of that. -/
def CutsAt (h : Header) (n start : Nat) : Prop :=
  ∃ before field after, h.fields = before ++ field :: after ∧
    start = 2 + before.flatten.length ∧ start ≤ n ∧ n < start + field.length

theorem encode_eq_fields (h : Header) : h.encode = Layout.magic ++ h.fields.flatten := by
  simp [encode, fields, List.flatMap_def]

theorem reads_readVersion : readVersion.Reads Layout.version [[Layout.version]] :=
  reads_single (fun _ _ => readVersion_eq_ok.2 ⟨rfl, rfl, rfl⟩) fun _ => rfl

theorem reads_readKind (kind : UInt8) : (readKind kind).Reads () [[kind]] :=
  reads_single (fun _ _ => readKind_eq_ok.2 ⟨rfl, rfl⟩) fun _ => rfl

theorem reads_readTerminator : readTerminator.Reads () [[Layout.terminator]] :=
  reads_single (fun _ _ => readTerminator_eq_ok.2 ⟨rfl, rfl⟩) fun _ => rfl

theorem reads_readCount (fine : h.WellFormed) :
    (readCount h.typeSize).Reads h.codeSizes.length [BigEndian.bytes16 (UInt16.ofNat h.codeSizes.length)] := by
  refine reads_field (fun n rest => ?_) fun short n => ?_
  · exact readCount_eq_ok.2 ⟨fine.count_pos, fine.count_le, fine.typeSize, rfl, rfl⟩
  · exact bind_eq_error.2 (.inl (word16_short short n))

theorem reads_readSizes {sizes : List UInt16} (nonzero : ∀ size ∈ sizes, size ≠ 0) (index : Nat) :
    (readSizes index sizes.length).Reads sizes (sizes.map BigEndian.bytes16) := by
  induction sizes generalizing index with
  | nil => exact reads_pure []
  | cons size sizes ih =>
    obtain ⟨first, others⟩ := List.forall_mem_cons.1 nonzero
    refine (reads_word16 size).bind ?_
    rw [if_neg first, ← List.append_nil (sizes.map _)]
    exact (ih others (index + 1)).bind (reads_pure _)

theorem reads_fields (fine : h.WellFormed) :
    ∃ tail : Reader Header, read = (readMagic >>= fun _ => tail) ∧ tail.Reads h h.fields := by
  obtain ⟨version, typeSize, codeSizes, dataSize⟩ := h
  obtain rfl : version = Layout.version := fine.version
  refine ⟨_, rfl, reads_readVersion.bind ?_⟩
  refine (reads_readKind _).bind ((reads_word16 typeSize).bind ((reads_readKind _).bind ?_))
  refine (reads_readCount fine).bind ((reads_readSizes fine.nonzero 0).bind ((reads_readKind _).bind ?_))
  exact (reads_word16 dataSize).bind (reads_readTerminator.bind (reads_pure _))

theorem exists_cut (pieces : List (List UInt8)) {n : Nat} (short : n < pieces.flatten.length) :
    ∃ before piece after, pieces = before ++ piece :: after ∧
      before.flatten.length ≤ n ∧ n < before.flatten.length + piece.length := by
  induction pieces generalizing n with
  | nil => exact absurd short (Nat.not_lt_zero n)
  | cons first others ih =>
    rw [List.flatten_cons, List.length_append] at short
    by_cases inside : n < first.length
    · exact ⟨[], first, others, rfl, Nat.zero_le n, by simpa using inside⟩
    · have past := Nat.le_of_not_lt inside
      obtain ⟨before, piece, after, rfl, above, below⟩ := ih (n := n - first.length) (by omega)
      refine ⟨first :: before, piece, after, rfl, ?_⟩
      rw [List.flatten_cons, List.length_append]
      omega

theorem exists_cutsAt (h : Header) {n : Nat} (past : 2 ≤ n) (short : n < h.length) :
    ∃ start, h.CutsAt n start := by
  have whole := h.length_encode
  rw [encode_eq_fields, List.length_append] at whole
  have magic : Layout.magic.length = 2 := rfl
  obtain ⟨before, field, after, split, above, below⟩ := exists_cut h.fields (n := n - 2) (by omega)
  exact ⟨_, before, field, after, split, rfl, by omega, by omega⟩

theorem read_of_cutsAt (fine : h.WellFormed) {n first : Nat} (cut : h.CutsAt n first) (rest : List UInt8) :
    ∃ stop, read (.ofBytes ((h.encode ++ rest).take n)) = .error (.unexpectedEnd first) stop := by
  obtain ⟨before, field, after, split, rfl, above, below⟩ := cut
  obtain ⟨m, rfl⟩ := Nat.exists_eq_add_of_le above
  have short : (field.take m).length < field.length := by
    rw [List.length_take]
    omega
  have front : (h.encode ++ rest).take (2 + before.flatten.length + m)
      = Layout.magic ++ (before.flatten ++ field.take m) := by
    have shape : h.encode ++ rest = (Layout.magic ++ before.flatten) ++ (field ++ (after.flatten ++ rest)) := by
      simp [encode_eq_fields, split]
    have count : 2 + before.flatten.length = (Layout.magic ++ before.flatten).length := by
      rw [List.length_append]
      rfl
    rw [shape, count, List.take_length_add_append, List.take_append_of_le_length (by omega), List.append_assoc]
  obtain ⟨tail, shape, reads⟩ := reads_fields fine
  rw [front, shape]
  exact ⟨_, bind_eq_error.2 (.inr ⟨(), _, readMagic_eq_ok.2 ⟨rfl, rfl⟩, reads.cut split short 2⟩)⟩

end Header

namespace Container

variable {h : Header} {k k' : Container} {n : Nat} {rest other : List UInt8}

theorem decode_of_header (failed : Header.read (.ofBytes bytes) = .error e stop) : decode bytes = .error e :=
  answer_eq_error.2 ⟨stop, bind_eq_error.2 (.inl failed)⟩

theorem decode_of_shared (long : 2 ≤ bytes.length) (failed : Header.read (.ofBytes bytes) = .error e stop)
    (broken : ∀ n, e ≠ .unexpectedEnd n) (shared : other.take stop.offset = bytes.take stop.offset) :
    decode other = .error e := by
  obtain ⟨front, passes, again⟩ := (Header.local_read long).error failed broken
  have whole : bytes = front ++ stop.rest := passes.rest
  have count : stop.offset = front.length := passes.offset.trans (Nat.zero_add _)
  rw [count, whole, List.take_left] at shared
  rw [← List.take_append_drop front.length other, shared]
  exact decode_of_header (again _)

theorem decode_of_short (short : bytes.length < 2) : decode bytes = .error .badMagic := by
  have missed : Header.readMagic (.ofBytes bytes) = .error .badMagic (.ofBytes bytes) := by
    obtain _ | ⟨_, _ | ⟨_, _⟩⟩ := bytes
    · rfl
    · rfl
    · exact absurd short (Nat.not_lt_of_le (Nat.le_add_left _ _))
  exact decode_of_header (bind_eq_error.2 (.inl missed))

theorem decode_missized (fine : h.WellFormed) (rest : List UInt8) (missized : rest.length ≠ h.bodyLength) :
    decode (h.encode ++ rest) = .error (.bodySizeMismatch h.bodyLength rest.length) := by
  have header : Header.read (.ofBytes (h.encode ++ rest)) = .ok h ⟨h.encode.length, rest⟩ :=
    Header.read_eq_ok.2 ⟨fine, rfl, (Nat.zero_add _).symm⟩
  refine answer_eq_error.2 ⟨⟨h.encode.length, rest⟩, bind_eq_error.2 (.inr ⟨h, _, header, ?_⟩)⟩
  refine bind_eq_error.2 (.inr ⟨rest.length, _, rfl, ?_⟩)
  rw [if_neg missized]
  rfl

/-- How beginnings of the bytes of a container are refused, and these with others behind them: a beginning for its
magic, at the start of the field of the header that is cut, or for the size of its body. -/
structure Delimited (k : Container) (bytes : List UInt8) : Prop where
  length : k.header.length = 13 + 2 * k.sections.size
  magic : ∀ n < 2, decode (bytes.take n) = .error .badMagic
  field : ∀ n, 2 ≤ n → n < k.header.length → ∃ start, k.header.CutsAt n start ∧
    decode (bytes.take n) = .error (.unexpectedEnd start)
  body : ∀ n, k.header.length ≤ n → n < bytes.length → decode (bytes.take n)
    = .error (.bodySizeMismatch (bytes.length - k.header.length) (n - k.header.length))
  longer : ∀ more ≠ [], decode (bytes ++ more) = .error (.bodySizeMismatch (bytes.length - k.header.length)
    (bytes.length - k.header.length + more.length))

theorem delimited (fine : k.WellFormed) : k.Delimited k.encode := by
  have header := k.header.length_encode
  have expected : k.body.length = k.header.bodyLength := fine.declares.length_body fine.header
  have total : k.encode.length = k.header.length + k.body.length := by
    rw [k.encode_eq, List.length_append, header]
  have declared : k.encode.length - k.header.length = k.header.bodyLength := by omega
  refine ⟨?_, ?_, ?_, ?_, ?_⟩
  · rw [Header.length, fine.declares.length_codeSizes]
  · intro n few
    refine decode_of_short ?_
    rw [List.length_take]
    omega
  · intro n past inside
    obtain ⟨start, cut⟩ := k.header.exists_cutsAt past inside
    obtain ⟨stop, failed⟩ := Header.read_of_cutsAt fine.header cut k.body
    exact ⟨start, cut, decode_of_header (k.encode_eq ▸ failed)⟩
  · intro n past short
    obtain ⟨m, rfl⟩ := Nat.exists_eq_add_of_le past
    have partly : (k.body.take m).length = m := by
      rw [List.length_take]
      omega
    have front : k.encode.take (k.header.length + m) = k.header.encode ++ k.body.take m := by
      rw [k.encode_eq, ← header, List.take_length_add_append]
    rw [front, decode_missized fine.header _ (by omega), partly, declared, Nat.add_sub_cancel_left]
  · intro more some
    have positive := List.length_pos_iff.2 some
    rw [declared, k.encode_eq, List.append_assoc,
      decode_missized fine.header _ (by rw [List.length_append]; omega), List.length_append, expected]

/-- A rule that is broken in the header, a want of bytes apart, is broken whatever follows the bytes that were
read. Bytes that are accepted are delimited, so that none of them are the beginning of others. -/
theorem decode_first_failure :
    (∀ bytes e stop, 2 ≤ bytes.length → Header.read (.ofBytes bytes) = .error e stop →
      (∀ n, e ≠ .unexpectedEnd n) → ∀ other, other.take stop.offset = bytes.take stop.offset →
      decode other = .error e) ∧
    (∀ bytes k, decode bytes = .ok k → k.Delimited bytes) ∧
    ∀ bytes other k k', decode bytes = .ok k → decode other = .ok k' → bytes <+: other → bytes = other := by
  refine ⟨?_, ?_, ?_⟩
  · intro bytes e stop long failed broken other shared
    exact decode_of_shared long failed broken shared
  · intro bytes k decoded
    obtain ⟨fine, rfl⟩ := decode_eq_ok.1 decoded
    exact delimited fine
  · rintro bytes _ k k' decoded again ⟨more, rfl⟩
    obtain ⟨fine, rfl⟩ := decode_eq_ok.1 decoded
    by_cases none : more = []
    · rw [none, List.append_nil]
    · cases ((delimited fine).longer more none).symm.trans again

/-- The errand, cut in its size of the type table, cut in its body, and with a byte behind it. Any bytes that go
on after the magic with another version are refused for that. -/
theorem errand_first_failure :
    (∃ start, errand.header.CutsAt 5 start ∧ decode (errand.encode.take 5) = .error (.unexpectedEnd start)) ∧
    decode (errand.encode.take 20) = .error (.bodySizeMismatch 15 3) ∧
    decode (errand.encode ++ [0]) = .error (.bodySizeMismatch 15 16) ∧
    (∀ rest, decode (0xEF :: 0x00 :: 2 :: rest) = .error (.unsupportedVersion 2)) ∧
    ∀ other k, decode other = .ok k → errand.encode <+: other → errand.encode = other := by
  obtain ⟨shared, accepted, alone⟩ := decode_first_failure
  have decoded : decode errand.encode = .ok errand :=
    decode_eq_ok.2 ⟨⟨rfl, by decide, by decide, by decide, by decide⟩, rfl⟩
  have delimited := accepted errand.encode errand decoded
  refine ⟨delimited.field 5 (by decide) (by decide), delimited.body 20 (by decide) (by decide),
    delimited.longer [0] (by simp), fun rest => ?_, fun other k => alone errand.encode other errand k decoded⟩
  exact shared [0xEF, 0x00, 2] _ ⟨3, []⟩ (by decide) rfl (by simp) _ rfl

end Container
end EvmObject
