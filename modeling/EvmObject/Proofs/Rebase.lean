import EvmObject.Machine.DataStack.Lemmas
/-!
Exchanging the words at the bottom of a data stack for others. Main statement: instructions that run
above a floor do not notice (`StackOp.apply_rebase`).
-/
namespace EvmObject

namespace DataStack

variable {s : DataStack} {low : List Word} {floor : Nat}

/-- The stack with `low` in place of as many words at its bottom. -/
def rebase (low : List Word) (s : DataStack) : DataStack where
  limit := s.limit
  words := (low ++ s.slots.drop low.length).reverse
  height := low.length + (s.height - low.length)
  height_eq := by simp [Nat.add_comm]

@[simp] theorem limit_rebase (low : List Word) (s : DataStack) : (s.rebase low).limit = s.limit :=
  rfl

@[simp] theorem slots_rebase (low : List Word) (s : DataStack) :
    (s.rebase low).slots = low ++ s.slots.drop low.length := by
  simp [rebase, slots]

theorem height_rebase (fits : low.length ≤ s.height) : (s.rebase low).height = s.height := by
  simp only [rebase]; omega

theorem words_rebase (low : List Word) (s : DataStack) :
    (s.rebase low).words = s.words.take (s.height - low.length) ++ low.reverse := by
  simp [rebase, slots, List.drop_reverse, ← s.height_eq]

theorem rebase_take (fits : floor ≤ s.height) : s.rebase (s.slots.take floor) = s := by
  refine ext_slots (limit_rebase _ s) ?_
  rw [slots_rebase, List.length_take, length_slots, Nat.min_eq_left fits, List.take_append_drop]

theorem take_of_rebase (same : s.rebase low = s) :
    low.length ≤ s.height ∧ s.slots.take low.length = low := by
  have heights : low.length + (s.height - low.length) = s.height := congrArg height same
  have shape := congrArg slots same
  rw [slots_rebase] at shape
  exact ⟨by omega, by rw [← shape, List.take_left]⟩

theorem visible_rebase (fits : low.length ≤ s.height) (floor : Nat) :
    (s.rebase low).visible floor = s.visible floor := by
  rw [visible, height_rebase fits, visible]

theorem require_rebase (fits : low.length ≤ s.height) (floor n : Nat) :
    (s.rebase low).require floor n = s.require floor n := by
  rw [require, visible_rebase fits, require]

theorem accommodates_rebase (fits : low.length ≤ s.height) (floor inputs outputs : Nat) :
    (s.rebase low).accommodates floor inputs outputs = s.accommodates floor inputs outputs := by
  rw [accommodates, require_rebase fits, height_rebase fits, limit_rebase, accommodates]

theorem push_rebase (fits : low.length ≤ s.height) (w : Word) :
    (s.rebase low).push w = (s.push w).map (rebase low) := by
  cases pushed : s.push w with
  | error e =>
    rw [push_eq_error] at pushed
    exact push_eq_error.2 (by rwa [height_rebase fits])
  | ok t =>
    obtain ⟨room, limits, shape⟩ := push_eq_ok.1 pushed
    refine push_eq_ok.2 ⟨by rwa [height_rebase fits], limits, ?_⟩
    rw [slots_rebase, slots_rebase, shape, List.append_assoc,
      List.drop_append_of_le_length (by rwa [length_slots])]

theorem pushAll_rebase (fits : low.length ≤ s.height) (ws : List Word) :
    (s.rebase low).pushAll ws = onStacks (rebase low) (s.pushAll ws) := by
  induction ws generalizing s with
  | nil => rfl
  | cons w ws ih =>
    rw [pushAll, pushAll, push_rebase fits]
    cases pushed : s.push w with
    | error e => rfl
    | ok t =>
      have grown := (height_push pushed).2
      exact ih (by omega)

theorem popMany_rebase (deep : low.length ≤ floor) (fits : low.length ≤ s.height) (n : Nat) :
    (s.rebase low).popMany floor n = (s.popMany floor n).map (Prod.map id (rebase low)) := by
  cases popped : s.popMany floor n with
  | error e =>
    rw [popMany_eq_error] at popped
    exact popMany_eq_error.2 (by rwa [visible_rebase fits])
  | ok r =>
    obtain ⟨ws, t⟩ := r
    obtain ⟨enough, taken, limits, shape⟩ := popMany_eq_ok.1 popped
    have fewer := (height_popMany popped).2
    have left : low.length ≤ t.slots.length := by
      rw [length_slots]
      unfold visible at enough
      omega
    refine popMany_eq_ok.2 ⟨by rwa [visible_rebase fits], taken, limits, ?_⟩
    simp only [slots_rebase, shape, id_eq, List.append_assoc, List.drop_append_of_le_length left]

theorem pop_rebase (deep : low.length ≤ floor) (fits : low.length ≤ s.height) :
    (s.rebase low).pop floor = (s.pop floor).map (Prod.map id (rebase low)) := by
  rw [pop_eq, pop_eq, popMany_rebase deep fits]
  cases s.popMany floor 1 <;> rfl

theorem dup_rebase (deep : low.length ≤ floor) (fits : low.length ≤ s.height) (depth : Nat) :
    (s.rebase low).dup floor (depth + 1) = (s.dup floor (depth + 1)).map (rebase low) := by
  unfold dup
  rw [require_rebase fits, height_rebase fits]
  cases enough : s.require floor (depth + 1) with
  | error e => rfl
  | ok u =>
    have visible := require_eq_ok.1 enough
    have within : depth < (s.words.take (s.height - low.length)).length := by
      rw [List.length_take, ← s.height_eq]
      unfold DataStack.visible at visible
      omega
    have same : (s.rebase low).words[depth]? = s.words[depth]? := by
      rw [words_rebase, List.getElem?_append_left within, List.getElem?_take_of_lt]
      rw [List.length_take] at within
      omega
    simp only [Nat.add_sub_cancel, same]
    cases s.words[depth]? with
    | none => rfl
    | some w => exact push_rebase fits w

theorem exchange_append {depth : Nat} {xs : List Word} (within : depth < xs.length)
    (ys : List Word) : exchange depth (xs ++ ys) = exchange depth xs ++ ys := by
  have first : 0 < xs.length := by omega
  unfold exchange
  rw [List.getElem?_append_left first, List.getElem?_append_left within,
    List.getElem?_eq_getElem first, List.getElem?_eq_getElem within]
  simp [List.set_append_left, first, within]

theorem exchange_take {depth n : Nat} {xs : List Word} (within : depth < n) (fits : n ≤ xs.length) :
    exchange depth (xs.take n) = (exchange depth xs).take n := by
  have upper : (xs.take n).length = n := by rw [List.length_take, Nat.min_eq_left fits]
  have parts := exchange_append (upper.symm ▸ within) (xs.drop n)
  rw [List.take_append_drop] at parts
  rw [parts, List.take_left' (by rw [length_exchange, upper])]

theorem swap_rebase (deep : low.length ≤ floor) (fits : low.length ≤ s.height) (depth : Nat) :
    (s.rebase low).swap floor depth = (s.swap floor depth).map (rebase low) := by
  cases swapped : s.swap floor depth with
  | error e =>
    rw [swap_eq_error] at swapped
    exact swap_eq_error.2 (by rwa [require_rebase fits])
  | ok t =>
    obtain ⟨enough, limits, shape⟩ := swap_eq_ok.1 swapped
    have within : depth < s.height - low.length := by unfold visible at enough; omega
    have upper : s.height - low.length ≤ s.words.length := by rw [← s.height_eq]; omega
    refine swap_eq_ok.2 ⟨by rwa [visible_rebase fits], limits, ?_⟩
    rw [words_rebase, words_rebase, exchange_append (by simpa [upper] using within),
      exchange_take within upper, shape, (height_swap swapped).2]

end DataStack

theorem StackOp.apply_rebase {s : DataStack} {low : List Word} {floor : Nat}
    (deep : low.length ≤ floor) (fits : low.length ≤ s.height) (op : StackOp) :
    op.apply floor (s.rebase low) = DataStack.onStacks (DataStack.rebase low) (op.apply floor s) := by
  have fits_pop : ∀ {s t : DataStack} {w : Word}, s.pop floor = .ok (w, t) →
      low.length ≤ t.height :=
    fun popped => Nat.le_trans deep (DataStack.height_pop popped).2.2
  cases op with
  | binary op =>
    rw [apply, apply, DataStack.pop_rebase deep fits]
    refine DataStack.keep_map_bind ?_
    intro a t first
    dsimp only
    rw [DataStack.pop_rebase deep (fits_pop first)]
    refine DataStack.keep_map_bind ?_
    intro b u second
    dsimp only
    rw [DataStack.push_rebase (fits_pop second), DataStack.keep_map]
  | unary op =>
    rw [apply, apply, DataStack.pop_rebase deep fits]
    refine DataStack.keep_map_bind ?_
    intro a t first
    dsimp only
    rw [DataStack.push_rebase (fits_pop first), DataStack.keep_map]
  | pop =>
    rw [apply, apply, DataStack.pop_rebase deep fits]
    exact DataStack.keep_map_bind fun _ _ _ => rfl
  | nop => rfl
  | push data => rw [apply, apply, DataStack.push_rebase fits, DataStack.keep_map]
  | dup depth => rw [apply, apply, DataStack.dup_rebase deep fits, DataStack.keep_map]
  | swap depth => rw [apply, apply, DataStack.swap_rebase deep fits, DataStack.keep_map]

end EvmObject
