import EvmObject.Machine.DataStack
/-!
When each operation of the data stack succeeds, how it fails and what it leaves, told through
`slots`: the words from the bottom up, so that a word keeps its index while others come and go above
it. Main statement: an instruction changes the height as its table row says (`height_apply`).
-/
namespace EvmObject

theorem bind_eq_ok {ε α β : Type} {x : Except ε α} {f : α → Except ε β} {b : β} :
    (x >>= f) = .ok b ↔ ∃ a, x = .ok a ∧ f a = .ok b := by
  cases x <;> simp [bind, Except.bind]

variable {s t : DataStack} {floor n depth : Nat} {w : Word} {ws : List Word} {reason : Halt}

namespace DataStack

/-- The words, the bottom one first. -/
def slots (s : DataStack) : List Word := s.words.reverse

@[simp] theorem length_slots (s : DataStack) : s.slots.length = s.height := by
  rw [slots, List.length_reverse, s.height_eq]

theorem ext_slots (limits : s.limit = t.limit) (slots : s.slots = t.slots) : s = t :=
  ext limits (List.reverse_inj.1 slots)

section

variable {α β : Type} {x : Except Halt α} {f : α → Except (Halt × DataStack) β}

theorem keep_eq_ok {a : α} : s.keep x = .ok a ↔ x = .ok a := by
  cases x <;> simp [keep]

theorem keep_eq_error : s.keep x = .error (reason, t) ↔ x = .error reason ∧ t = s := by
  cases x <;> simp [keep, eq_comm]

theorem keep_bind_eq_ok {b : β} : (s.keep x >>= f) = .ok b ↔ ∃ a, x = .ok a ∧ f a = .ok b := by
  simp only [bind_eq_ok, keep_eq_ok]

theorem keep_bind_eq_error : (s.keep x >>= f) = .error (reason, t) ↔
    x = .error reason ∧ t = s ∨ ∃ a, x = .ok a ∧ f a = .error (reason, t) := by
  cases x <;> simp [keep, bind, Except.bind, eq_comm]

end

/-- The same outcome with other stacks, whether it is a stack or a failure that leaves one. -/
def onStacks (f : DataStack → DataStack) (x : Except (Halt × DataStack) DataStack) :
    Except (Halt × DataStack) DataStack :=
  (x.map f).mapError (Prod.map id f)

variable {f : DataStack → DataStack}

theorem keep_map (f : DataStack → DataStack) (s : DataStack) (x : Except Halt DataStack) :
    (f s).keep (x.map f) = onStacks f (s.keep x) := by
  cases x <;> rfl

theorem keep_map_bind {x : Except Halt (Word × DataStack)}
    {g : Word × DataStack → Except (Halt × DataStack) DataStack}
    (later : ∀ w t, x = .ok (w, t) → g (w, f t) = onStacks f (g (w, t))) :
    ((f s).keep (x.map (Prod.map id f)) >>= g) = onStacks f (s.keep x >>= g) := by
  cases x with
  | error e => rfl
  | ok r => exact later r.1 r.2 rfl

theorem require_eq_ok : s.require floor n = .ok () ↔ n ≤ s.visible floor := by
  unfold require
  split <;> simp_all

theorem require_eq_error : s.require floor n = .error reason ↔
    s.visible floor < n ∧ reason = .stackUnderflow n (s.visible floor) := by
  unfold require
  split
  · simp; omega
  · simp only [Except.error.injEq]
    constructor
    · intro h; exact ⟨by omega, h.symm⟩
    · intro h; exact h.2.symm

theorem push_eq_ok : s.push w = .ok t ↔
    s.height < s.limit ∧ t.limit = s.limit ∧ t.slots = s.slots ++ [w] := by
  unfold push
  split
  · rename_i room
    constructor
    · intro h
      cases h
      exact ⟨room, rfl, by simp [slots]⟩
    · intro h
      exact congrArg Except.ok (ext_slots h.2.1.symm (by rw [h.2.2]; simp [slots]))
  · simp; omega

theorem push_eq_error : s.push w = .error reason ↔
    s.limit ≤ s.height ∧ reason = .stackOverflow s.limit := by
  unfold push
  split
  · simp; omega
  · simp only [Except.error.injEq]
    constructor
    · intro h; exact ⟨by omega, h.symm⟩
    · intro h; exact h.2.symm

theorem slots_drop (s : DataStack) (n : Nat) :
    s.slots = (s.drop n).slots ++ (s.words.take n).reverse := by
  rw [slots, slots, ← List.reverse_append]
  exact congrArg List.reverse (List.take_append_drop n s.words).symm

theorem drop_of_slots (limits : t.limit = s.limit) (shape : s.slots = t.slots ++ ws) :
    (s.words.take ws.length).reverse = ws ∧ s.drop ws.length = t := by
  have within : ws.length ≤ s.words.length := by
    have total := congrArg List.length shape
    rw [List.length_append, length_slots, s.height_eq] at total
    omega
  have both := List.append_inj' ((slots_drop s ws.length).symm.trans shape) (by simp [within])
  exact ⟨both.2, ext_slots limits.symm both.1⟩

theorem popMany_eq_ok : s.popMany floor n = .ok (ws, t) ↔
    n ≤ s.visible floor ∧ ws.length = n ∧ t.limit = s.limit ∧ s.slots = t.slots ++ ws := by
  unfold popMany
  split
  · rename_i enough
    rw [require_eq_ok] at enough
    constructor
    · intro h
      cases h
      have within : n ≤ s.words.length := by rw [← s.height_eq]; unfold visible at enough; omega
      exact ⟨enough, by simp [within], rfl, slots_drop s n⟩
    · rintro ⟨_, rfl, limits, shape⟩
      have same := drop_of_slots limits shape
      rw [same.1, same.2]
  · rename_i few
    have := (require_eq_error.1 few).1
    simp; omega

theorem popMany_eq_error : s.popMany floor n = .error reason ↔
    s.visible floor < n ∧ reason = .stackUnderflow n (s.visible floor) := by
  rw [← require_eq_error]
  unfold popMany
  split <;> simp_all

theorem popMany_of_le (enough : n ≤ s.visible floor) : ∃ ws t, s.popMany floor n = .ok (ws, t) := by
  cases taken : s.popMany floor n with
  | error reason =>
    have := (popMany_eq_error.1 taken).1
    omega
  | ok r => exact ⟨r.1, r.2, rfl⟩

theorem pop_eq (s : DataStack) (floor : Nat) :
    s.pop floor = (s.popMany floor 1).map fun r => (r.1.headD 0, r.2) := by
  have bound := s.height_eq
  unfold pop popMany
  split
  · rename_i top rest shape
    by_cases enough : 1 ≤ s.visible floor
    · simp [require, enough, shape, Except.map]
    · simp [require, enough, Except.map]
  · rename_i shape
    have none : s.visible floor = 0 := by
      rw [shape, List.length_nil] at bound
      rw [visible, bound, Nat.zero_sub]
    simp [require, none, Except.map]

theorem pop_of_le (enough : 1 ≤ s.visible floor) : ∃ w t, s.pop floor = .ok (w, t) := by
  obtain ⟨ws, t, taken⟩ := popMany_of_le enough
  rw [pop_eq, taken]
  exact ⟨_, t, rfl⟩

theorem pop_eq_ok : s.pop floor = .ok (w, t) ↔
    floor < s.height ∧ t.limit = s.limit ∧ s.slots = t.slots ++ [w] := by
  have enough : 1 ≤ s.visible floor ↔ floor < s.height := by unfold visible; omega
  rw [pop_eq, ← enough]
  constructor
  · intro h
    cases many : s.popMany floor 1 with
    | error e => simp [many, Except.map] at h
    | ok r =>
      obtain ⟨ws, rest⟩ := r
      obtain ⟨room, one, limits, shape⟩ := popMany_eq_ok.1 many
      obtain ⟨top, rfl⟩ := List.length_eq_one_iff.1 one
      simp only [many, Except.map, Except.ok.injEq, List.headD_cons, Prod.mk.injEq] at h
      exact ⟨room, h.2 ▸ limits, by rw [shape, h.1, h.2]⟩
  · rintro ⟨room, limits, shape⟩
    rw [popMany_eq_ok.2 ⟨room, rfl, limits, shape⟩]
    rfl

theorem pop_eq_error : s.pop floor = .error reason ↔
    s.height ≤ floor ∧ reason = .stackUnderflow 1 0 := by
  have few : s.visible floor < 1 ↔ s.height ≤ floor := by unfold visible; omega
  have from_many : s.pop floor = .error reason ↔ s.popMany floor 1 = .error reason := by
    rw [pop_eq]
    cases s.popMany floor 1 <;> simp [Except.map]
  rw [from_many, popMany_eq_error, few]
  constructor
  · rintro ⟨low, rfl⟩
    exact ⟨low, by rw [visible, Nat.sub_eq_zero_of_le low]⟩
  · rintro ⟨low, rfl⟩
    exact ⟨low, by rw [visible, Nat.sub_eq_zero_of_le low]⟩

theorem height_push (h : s.push w = .ok t) : t.limit = s.limit ∧ t.height = s.height + 1 := by
  obtain ⟨_, limits, shape⟩ := push_eq_ok.1 h
  have total := congrArg List.length shape
  simp only [length_slots, List.length_append, List.length_singleton] at total
  exact ⟨limits, total⟩

theorem height_pushAll (h : s.pushAll ws = .ok t) :
    t.limit = s.limit ∧ t.height = s.height + ws.length := by
  induction ws generalizing s with
  | nil =>
    cases h
    exact ⟨rfl, rfl⟩
  | cons w ws ih =>
    rw [pushAll] at h
    cases pushed : s.push w with
    | error e => simp [pushed] at h
    | ok u =>
      rw [pushed] at h
      obtain ⟨limits, one⟩ := height_push pushed
      obtain ⟨limits', others⟩ := ih h
      exact ⟨limits'.trans limits, by rw [others, one, List.length_cons]; omega⟩

theorem height_popMany (h : s.popMany floor n = .ok (ws, t)) :
    t.limit = s.limit ∧ t.height + n = s.height := by
  obtain ⟨_, taken, limits, shape⟩ := popMany_eq_ok.1 h
  have total := congrArg List.length shape
  simp only [length_slots, List.length_append, taken] at total
  exact ⟨limits, total.symm⟩

theorem height_pop (h : s.pop floor = .ok (w, t)) :
    t.limit = s.limit ∧ t.height + 1 = s.height ∧ floor ≤ t.height := by
  obtain ⟨above, limits, shape⟩ := pop_eq_ok.1 h
  have total := congrArg List.length shape
  simp only [length_slots, List.length_append, List.length_singleton] at total
  exact ⟨limits, total.symm, by omega⟩

theorem dup_eq_ok : s.dup floor (depth + 1) = .ok t ↔
    depth < s.visible floor ∧ ∃ w, s.words[depth]? = some w ∧ s.push w = .ok t := by
  unfold dup
  split
  · rename_i few
    have short := (require_eq_error.1 few).1
    constructor
    · nofun
    · rintro ⟨enough, _⟩
      omega
  · rename_i enough
    rw [require_eq_ok] at enough
    rw [Nat.add_sub_cancel]
    cases s.words[depth]? with
    | none =>
      constructor
      · nofun
      · rintro ⟨_, _, ⟨⟩, _⟩
    | some w =>
      constructor
      · exact fun pushed => ⟨enough, w, rfl, pushed⟩
      · rintro ⟨_, _, ⟨⟩, pushed⟩
        exact pushed

theorem dup_eq_error (h : s.dup floor (depth + 1) = .error reason) :
    s.require floor (depth + 1) = .error reason ∨
      depth < s.visible floor ∧ s.push 0 = .error reason := by
  have bound := s.height_eq
  unfold dup at h
  split at h
  · cases h
    exact .inl ‹_›
  · rename_i enough
    rw [require_eq_ok] at enough
    rw [Nat.add_sub_cancel] at h
    split at h
    · rw [push_eq_error] at h ⊢
      exact .inr ⟨enough, h⟩
    · rename_i missing
      rw [List.getElem?_eq_none_iff] at missing
      unfold visible at enough
      omega

theorem swap_eq_ok : s.swap floor depth = .ok t ↔
    depth < s.visible floor ∧ t.limit = s.limit ∧ t.words = exchange depth s.words := by
  unfold swap
  split
  · rename_i few
    have := (require_eq_error.1 few).1
    simp; omega
  · rename_i enough
    rw [require_eq_ok] at enough
    constructor
    · intro h
      cases h
      exact ⟨enough, rfl, rfl⟩
    · rintro ⟨_, limits, shape⟩
      exact congrArg Except.ok (ext limits.symm shape.symm)

theorem height_swap (h : s.swap floor depth = .ok t) : t.limit = s.limit ∧ t.height = s.height := by
  obtain ⟨_, limits, shape⟩ := swap_eq_ok.1 h
  exact ⟨limits, by rw [t.height_eq, shape, length_exchange, s.height_eq]⟩

theorem swap_eq_error : s.swap floor depth = .error reason ↔
    s.require floor (depth + 1) = .error reason := by
  unfold swap
  split <;> simp_all

theorem accommodates_eq_ok {inputs outputs : Nat} :
    s.accommodates floor inputs outputs = .ok () ↔
      inputs ≤ s.visible floor ∧ s.height - inputs + outputs ≤ s.limit := by
  unfold accommodates
  rw [← require_eq_ok]
  split
  · simp_all
  · split <;> simp_all

theorem accommodates_eq_error {inputs outputs : Nat} :
    s.accommodates floor inputs outputs = .error reason ↔
      s.visible floor < inputs ∧ reason = .stackUnderflow inputs (s.visible floor) ∨
        inputs ≤ s.visible floor ∧ s.limit < s.height - inputs + outputs ∧
          reason = .stackOverflow s.limit := by
  unfold accommodates
  by_cases enough : inputs ≤ s.visible floor
  · have short : ¬ s.visible floor < inputs := Nat.not_lt.2 enough
    rw [require_eq_ok.2 enough]
    dsimp only
    split
    · simp
      omega
    · simp [enough, short, eq_comm]
      omega
  · have short := Nat.lt_of_not_le enough
    rw [require_eq_error.2 ⟨short, rfl⟩]
    simp [enough, short, eq_comm]

theorem pushAll_ne_error (room : s.height + ws.length ≤ s.limit) :
    s.pushAll ws ≠ .error (reason, t) := by
  induction ws generalizing s with
  | nil => nofun
  | cons w ws ih =>
    rw [List.length_cons] at room
    rw [pushAll]
    cases pushed : s.push w with
    | error e =>
      have := (push_eq_error.1 pushed).1
      omega
    | ok t =>
      obtain ⟨limits, one⟩ := height_push pushed
      exact ih (by omega)

theorem pushAll_of_room (room : s.height + ws.length ≤ s.limit) : ∃ t, s.pushAll ws = .ok t := by
  cases pushed : s.pushAll ws with
  | error fault => exact absurd pushed (pushAll_ne_error room)
  | ok t => exact ⟨t, rfl⟩

end DataStack

namespace Halt

def isStackFault : Halt → Bool
  | stackUnderflow _ _ | stackOverflow _ => true
  | _ => false

theorem isStackFault_ofDecodeError (e : DecodeError) : (ofDecodeError e).isStackFault = false := by
  cases e <;> rfl

end Halt

namespace DataStack

theorem push_fault (h : s.push w = .error reason) : reason.isStackFault := by
  rw [(push_eq_error.1 h).2]
  rfl

theorem pushAll_fault (h : s.pushAll ws = .error (reason, t)) : reason.isStackFault := by
  induction ws generalizing s with
  | nil => nomatch h
  | cons w ws ih =>
    rw [pushAll] at h
    cases pushed : s.push w with
    | error e =>
      rw [pushed] at h
      cases h
      exact push_fault pushed
    | ok t =>
      rw [pushed] at h
      exact ih h

theorem require_fault (h : s.require floor n = .error reason) : reason.isStackFault := by
  rw [(require_eq_error.1 h).2]
  rfl

theorem accommodates_fault {inputs outputs : Nat}
    (h : s.accommodates floor inputs outputs = .error reason) : reason.isStackFault := by
  obtain ⟨_, rfl⟩ | ⟨_, _, rfl⟩ := accommodates_eq_error.1 h
  · rfl
  · rfl

theorem popMany_fault (h : s.popMany floor n = .error reason) : reason.isStackFault := by
  rw [(popMany_eq_error.1 h).2]
  rfl

theorem pop_fault (h : s.pop floor = .error reason) : reason.isStackFault := by
  rw [(pop_eq_error.1 h).2]
  rfl

theorem dup_fault (h : s.dup floor (depth + 1) = .error reason) : reason.isStackFault := by
  obtain few | ⟨_, full⟩ := dup_eq_error h
  · exact require_fault few
  · exact push_fault full

theorem swap_fault (h : s.swap floor depth = .error reason) : reason.isStackFault :=
  require_fault (swap_eq_error.1 h)

end DataStack

@[simp] theorem BinaryOp.inputs_eq (op : BinaryOp) : op.info.inputs = 2 := by
  cases op <;> rfl

@[simp] theorem BinaryOp.outputs_eq (op : BinaryOp) : op.info.outputs = 1 := by
  cases op <;> rfl

@[simp] theorem UnaryOp.inputs_eq (op : UnaryOp) : op.info.inputs = 1 := by
  cases op <;> rfl

@[simp] theorem UnaryOp.outputs_eq (op : UnaryOp) : op.info.outputs = 1 := by
  cases op <;> rfl

namespace StackOp

theorem height_apply {op : StackOp} (h : op.apply floor s = .ok t) :
    t.limit = s.limit ∧
      t.height + op.opcode.info.inputs = s.height + op.opcode.info.outputs := by
  cases op with
  | binary op =>
    obtain ⟨⟨a, u⟩, first, h⟩ := DataStack.keep_bind_eq_ok.1 h
    obtain ⟨⟨b, v⟩, second, third⟩ := DataStack.keep_bind_eq_ok.1 h
    obtain ⟨limits₁, one, _⟩ := DataStack.height_pop first
    obtain ⟨limits₂, two, _⟩ := DataStack.height_pop second
    obtain ⟨limits₃, three⟩ := DataStack.height_push (DataStack.keep_eq_ok.1 third)
    refine ⟨limits₃.trans (limits₂.trans limits₁), ?_⟩
    simp only [opcode, Opcode.info, op.inputs_eq, op.outputs_eq]
    omega
  | unary op =>
    obtain ⟨⟨a, u⟩, first, second⟩ := DataStack.keep_bind_eq_ok.1 h
    obtain ⟨limits₁, one, _⟩ := DataStack.height_pop first
    obtain ⟨limits₂, two⟩ := DataStack.height_push (DataStack.keep_eq_ok.1 second)
    refine ⟨limits₂.trans limits₁, ?_⟩
    simp only [opcode, Opcode.info, op.inputs_eq, op.outputs_eq]
    omega
  | pop =>
    obtain ⟨⟨a, u⟩, first, rest⟩ := DataStack.keep_bind_eq_ok.1 h
    cases rest
    obtain ⟨limits, one, _⟩ := DataStack.height_pop first
    exact ⟨limits, one⟩
  | nop =>
    cases h
    exact ⟨rfl, rfl⟩
  | push data => exact DataStack.height_push (DataStack.keep_eq_ok.1 h)
  | dup depth =>
    obtain ⟨_, w, _, pushed⟩ := DataStack.dup_eq_ok.1 (DataStack.keep_eq_ok.1 h)
    obtain ⟨limits, one⟩ := DataStack.height_push pushed
    refine ⟨limits, ?_⟩
    simp only [opcode, Opcode.info, OpcodeInfo.plain]
    omega
  | swap depth =>
    obtain ⟨limits, same⟩ := DataStack.height_swap (DataStack.keep_eq_ok.1 h)
    refine ⟨limits, ?_⟩
    rw [same]
    rfl

theorem apply_ne_error {op : StackOp}
    (fits : s.accommodates floor op.opcode.info.inputs op.opcode.info.outputs = .ok ()) :
    op.apply floor s ≠ .error (reason, t) := by
  intro h
  obtain ⟨enough, room⟩ := DataStack.accommodates_eq_ok.1 fits
  unfold DataStack.visible at enough
  cases op with
  | binary op =>
    simp only [opcode, Opcode.info, op.inputs_eq, op.outputs_eq] at enough room
    obtain ⟨first, _⟩ | ⟨⟨a, u⟩, first, h⟩ := DataStack.keep_bind_eq_error.1 h
    · have := (DataStack.pop_eq_error.1 first).1
      omega
    obtain ⟨limits₁, one, _⟩ := DataStack.height_pop first
    obtain ⟨second, _⟩ | ⟨⟨b, v⟩, second, third⟩ := DataStack.keep_bind_eq_error.1 h
    · have := (DataStack.pop_eq_error.1 second).1
      omega
    obtain ⟨limits₂, two, _⟩ := DataStack.height_pop second
    have := (DataStack.push_eq_error.1 (DataStack.keep_eq_error.1 third).1).1
    omega
  | unary op =>
    simp only [opcode, Opcode.info, op.inputs_eq, op.outputs_eq] at enough room
    obtain ⟨first, _⟩ | ⟨⟨a, u⟩, first, second⟩ := DataStack.keep_bind_eq_error.1 h
    · have := (DataStack.pop_eq_error.1 first).1
      omega
    obtain ⟨limits, one, _⟩ := DataStack.height_pop first
    have := (DataStack.push_eq_error.1 (DataStack.keep_eq_error.1 second).1).1
    omega
  | pop =>
    obtain ⟨first, _⟩ | ⟨⟨a, u⟩, _, rest⟩ := DataStack.keep_bind_eq_error.1 h
    · have := (DataStack.pop_eq_error.1 first).1
      simp only [opcode, Opcode.info, OpcodeInfo.plain] at enough
      omega
    · nomatch rest
  | nop => nomatch h
  | push data =>
    have := (DataStack.push_eq_error.1 (DataStack.keep_eq_error.1 h).1).1
    simp only [opcode, Opcode.info] at room
    omega
  | dup depth =>
    simp only [opcode, Opcode.info, OpcodeInfo.plain] at enough room
    obtain few | ⟨_, full⟩ := DataStack.dup_eq_error (DataStack.keep_eq_error.1 h).1
    · have := (DataStack.require_eq_error.1 few).1
      unfold DataStack.visible at this
      omega
    · have := (DataStack.push_eq_error.1 full).1
      omega
  | swap depth =>
    have := (DataStack.require_eq_error.1 (DataStack.swap_eq_error.1 (DataStack.keep_eq_error.1 h).1)).1
    simp only [opcode, Opcode.info, OpcodeInfo.plain] at enough
    unfold DataStack.visible at this
    omega

theorem apply_fault {op : StackOp} (h : op.apply floor s = .error (reason, t)) :
    reason.isStackFault := by
  cases op with
  | binary op =>
    obtain ⟨first, _⟩ | ⟨⟨a, u⟩, _, h⟩ := DataStack.keep_bind_eq_error.1 h
    · exact DataStack.pop_fault first
    · obtain ⟨second, _⟩ | ⟨⟨b, v⟩, _, third⟩ := DataStack.keep_bind_eq_error.1 h
      · exact DataStack.pop_fault second
      · exact DataStack.push_fault (DataStack.keep_eq_error.1 third).1
  | unary op =>
    obtain ⟨first, _⟩ | ⟨⟨a, u⟩, _, second⟩ := DataStack.keep_bind_eq_error.1 h
    · exact DataStack.pop_fault first
    · exact DataStack.push_fault (DataStack.keep_eq_error.1 second).1
  | pop =>
    obtain ⟨first, _⟩ | ⟨⟨a, u⟩, _, rest⟩ := DataStack.keep_bind_eq_error.1 h
    · exact DataStack.pop_fault first
    · nomatch rest
  | nop => nomatch h
  | push data => exact DataStack.push_fault (DataStack.keep_eq_error.1 h).1
  | dup depth => exact DataStack.dup_fault (DataStack.keep_eq_error.1 h).1
  | swap depth => exact DataStack.swap_fault (DataStack.keep_eq_error.1 h).1

end StackOp
end EvmObject
