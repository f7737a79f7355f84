import EvmObject.Container.Cursor
/-!
What readers accept, told through the bytes that lie between the cursor before and the one after
(`Cursor.Passes`), and what they come to where bytes are wanting. Main statements: one equivalence for each reader, and
those for their combinations.
-/
namespace EvmObject

variable {α β : Type} {c d e start stop : Cursor} {u v : List UInt8}

namespace Reader

theorem bind_eq_ok {r : Reader α} {f : α → Reader β} {b : β} :
    (r >>= f) start = .ok b stop ↔ ∃ a mid, r start = .ok a mid ∧ f a mid = .ok b stop := by
  change EStateM.bind r f start = _ ↔ _
  unfold EStateM.bind
  cases r start with
  | ok a mid =>
    constructor
    · exact fun h => ⟨a, mid, rfl, h⟩
    · rintro ⟨_, _, ⟨⟩, h⟩
      exact h
  | error e mid => simp

theorem bind_eq_error {r : Reader α} {f : α → Reader β} {e : LayoutError} :
    (r >>= f) start = .error e stop ↔
      r start = .error e stop ∨ ∃ a mid, r start = .ok a mid ∧ f a mid = .error e stop := by
  change EStateM.bind r f start = _ ↔ _
  unfold EStateM.bind
  cases r start with
  | ok a mid =>
    constructor
    · exact fun h => .inr ⟨a, mid, rfl, h⟩
    · rintro (⟨⟨⟩⟩ | ⟨_, _, ⟨⟩, h⟩)
      exact h
  | error e mid => simp

theorem pure_eq_ok {a b : α} : (pure a : Reader α) start = .ok b stop ↔ a = b ∧ start = stop := by
  change EStateM.Result.ok a start = _ ↔ _
  simp

theorem throw_ne_ok {e : LayoutError} {a : α} : (throw e : Reader α) start ≠ .ok a stop := nofun

theorem answer_eq_ok {r : Reader α} {bytes : List UInt8} {a : α} :
    r.answer bytes = .ok a ↔ ∃ stop, r (Cursor.ofBytes bytes) = .ok a stop := by
  unfold answer
  cases r (Cursor.ofBytes bytes) <;> simp

theorem answer_eq_error {r : Reader α} {bytes : List UInt8} {e : LayoutError} :
    r.answer bytes = .error e ↔ ∃ stop, r (Cursor.ofBytes bytes) = .error e stop := by
  unfold answer
  cases r (Cursor.ofBytes bytes) <;> simp

theorem unless_eq_ok {p : Prop} [Decidable p] {r : Reader α} {e : LayoutError} {a : α} :
    (if p then throw e else r) start = .ok a stop ↔ ¬ p ∧ r start = .ok a stop := by
  by_cases h : p
  · simp [h, throw_ne_ok]
  · simp [h]

theorem when_eq_ok {p : Prop} [Decidable p] {r : Reader α} {e : LayoutError} {a : α} :
    (if p then r else throw e) start = .ok a stop ↔ p ∧ r start = .ok a stop := by
  by_cases h : p
  · simp [h]
  · simp [h, throw_ne_ok]

end Reader

/-- Between the two cursors lie just these bytes. -/
structure Cursor.Passes (c : Cursor) (front : List UInt8) (d : Cursor) : Prop where
  rest : c.rest = front ++ d.rest
  offset : d.offset = c.offset + front.length

namespace Cursor

theorem Passes.exists_eq (h : c.Passes u d) :
    ∃ n rest, c = ⟨n, u ++ rest⟩ ∧ d = ⟨n + u.length, rest⟩ := by
  obtain ⟨shape, offset⟩ := h
  refine ⟨c.offset, d.rest, ?_, ?_⟩
  · rw [← shape]
  · rw [← offset]

theorem passes_nil : c.Passes [] d ↔ c = d := by
  constructor
  · rintro ⟨rest, offset⟩
    cases c
    cases d
    simp_all
  · rintro rfl
    exact ⟨rfl, rfl⟩

theorem passes_append : c.Passes (u ++ v) e ↔ ∃ d, c.Passes u d ∧ d.Passes v e := by
  constructor
  · rintro ⟨rest, offset⟩
    refine ⟨⟨c.offset + u.length, v ++ e.rest⟩, ⟨by rw [rest, List.append_assoc], rfl⟩, rfl, ?_⟩
    rw [offset, List.length_append, Nat.add_assoc]
  · rintro ⟨d, ⟨rest, offset⟩, ⟨rest', offset'⟩⟩
    exact ⟨by rw [rest, rest', List.append_assoc],
      by rw [offset', offset, List.length_append, Nat.add_assoc]⟩

end Cursor

namespace Reader

theorem byte_eq_ok {b : UInt8} : byte c = .ok b d ↔ c.Passes [b] d := by
  constructor
  · intro h
    obtain ⟨n, rest⟩ := c
    cases rest with
    | nil => nomatch h
    | cons b' rest =>
      cases h
      exact ⟨rfl, rfl⟩
  · intro passes
    obtain ⟨n, rest, rfl, rfl⟩ := passes.exists_eq
    exact byte_cons n b rest

theorem word16_eq_ok {w : UInt16} : word16 c = .ok w d ↔ c.Passes (BigEndian.bytes16 w) d := by
  constructor
  · intro h
    obtain ⟨n, rest⟩ := c
    match rest with
    | hi :: lo :: rest =>
      cases h
      exact ⟨by rw [BigEndian.bytes16_word16]; rfl, rfl⟩
  · intro passes
    obtain ⟨n, rest, rfl, rfl⟩ := passes.exists_eq
    exact word16_bytes16 n w rest

theorem word16_short {part : List UInt8} (short : part.length < 2) (n : Nat) :
    word16 ⟨n, part⟩ = .error (.unexpectedEnd n) ⟨n, part⟩ := by
  obtain _ | ⟨_, _ | ⟨_, _⟩⟩ := part
  · rfl
  · rfl
  · exact absurd short (Nat.not_lt_of_le (Nat.le_add_left _ _))

theorem take_eq_ok {n : Nat} : take n c = .ok u d ↔ u.length = n ∧ c.Passes u d := by
  constructor
  · intro h
    unfold take at h
    dsimp only at h
    split at h
    · rename_i long
      cases h
      exact ⟨long, (List.take_append_drop n c.rest).symm, by rw [long]⟩
    · nomatch h
  · rintro ⟨rfl, passes⟩
    obtain ⟨n, rest, rfl, rfl⟩ := passes.exists_eq
    exact take_append n u rest

theorem take_short {n : Nat} {part : List UInt8} (short : part.length < n) (k : Nat) :
    take n ⟨k, part⟩ = .error (.unexpectedEnd k) ⟨k, part⟩ := by
  have few : (part.take n).length ≠ n := by
    rw [List.length_take]
    omega
  change (if (part.take n).length = n then _ else _) = _
  rw [if_neg few]
  rfl

theorem marker_eq_ok {expected : UInt8} (fault : Nat → UInt8 → LayoutError) {a : Unit} :
    (do
      let offset ← Reader.offset
      let found ← byte
      if found = expected then pure () else throw (fault offset found) : Reader Unit) c = .ok a d ↔
      c.Passes [expected] d := by
  have offset : ∀ n e, Reader.offset c = .ok n e ↔ c.offset = n ∧ c = e := by simp [Reader.offset]
  simp only [bind_eq_ok, when_eq_ok, pure_eq_ok, byte_eq_ok, offset]
  constructor
  · rintro ⟨_, _, ⟨_, rfl⟩, _, _, passes, rfl, _, rfl⟩
    exact passes
  · intro passes
    exact ⟨_, _, ⟨rfl, rfl⟩, _, _, passes, rfl, trivial, rfl⟩

end Reader

end EvmObject
