import EvmObject.Host.GasMeter
import EvmObject.Machine.Context
import EvmObject.Machine.DataStack.Lemmas
/-!
Stacks and meters with higher limits. What they answer stays the same, unless it was a limit that cut it
short. Main statement: so it is with the instructions that work on the stack (`StackOp.apply_raise`).
-/
namespace EvmObject

variable {α β : Type} {reason : Halt}

def Halt.isLimit : Halt → Bool
  | stackOverflow _ | callStackLimit _ _ | returnStackOverflow _ | outOfGas => true
  | _ => false

/-- It is not for a limit if there is no result. -/
def Uncut (x : Except Halt α) : Prop :=
  ∀ reason, x = .error reason → reason.isLimit = false

theorem uncut_error : Uncut (.error reason : Except Halt α) ↔ reason.isLimit = false := by
  simp [Uncut]

theorem uncut_ok (a : α) : Uncut (.ok a : Except Halt α) := by
  rintro reason ⟨⟩

theorem mapError_fst_eq_error {x : Except (Halt × β) α} :
    x.mapError Prod.fst = .error reason ↔ ∃ left, x = .error (reason, left) := by
  constructor
  · intro h
    cases x with
    | error e =>
      cases h
      exact ⟨e.2, rfl⟩
    | ok a => cases h
  · rintro ⟨left, rfl⟩
    rfl

namespace Limits

instance : LE Limits where
  le l l' := l.stackLimit ≤ l'.stackLimit ∧ l.returnLimit ≤ l'.returnLimit ∧ l.gasLimit ≤ l'.gasLimit

instance (l l' : Limits) : Decidable (l ≤ l') :=
  inferInstanceAs (Decidable (_ ∧ _ ∧ _))

end Limits

namespace DataStack

variable {s : DataStack} {limit floor n : Nat} {w : Word} {ws : List Word}

def raise (limit : Nat) (s : DataStack) : DataStack :=
  { s with limit := max s.limit limit }

@[simp] theorem limit_raise (limit : Nat) (s : DataStack) : (s.raise limit).limit = max s.limit limit := rfl

@[simp] theorem height_raise (limit : Nat) (s : DataStack) : (s.raise limit).height = s.height := rfl

@[simp] theorem require_raise (limit : Nat) (s : DataStack) (floor n : Nat) :
    (s.raise limit).require floor n = s.require floor n := rfl

theorem uncut_keep {x : Except Halt α} (h : Uncut ((s.keep x).mapError Prod.fst)) : Uncut x := by
  cases x <;> exact h

theorem uncut_keep_bind {x : Except Halt α} {f : α → Except (Halt × DataStack) β} {a : α}
    (h : Uncut ((s.keep x >>= f).mapError Prod.fst)) (first : x = .ok a) :
    Uncut ((f a).mapError Prod.fst) := by
  rw [first] at h
  exact h

theorem push_raise (uncut : Uncut (s.push w)) :
    (s.raise limit).push w = (s.push w).map (raise limit) := by
  by_cases room : s.height < s.limit
  · have higher : s.height < max s.limit limit := Nat.lt_of_lt_of_le room (Nat.le_max_left _ _)
    simp [push, raise, room, higher, Except.map]
  · have cut := uncut _ (if_neg room)
    cases cut

theorem pushAll_raise (uncut : Uncut ((s.pushAll ws).mapError Prod.fst)) :
    (s.raise limit).pushAll ws = onStacks (raise limit) (s.pushAll ws) := by
  induction ws generalizing s with
  | nil => rfl
  | cons w ws ih =>
    rw [pushAll] at uncut
    rw [pushAll, pushAll]
    cases pushed : s.push w with
    | error e =>
      rw [pushed] at uncut
      rw [push_raise (pushed ▸ uncut_error.2 (uncut e rfl)), pushed]
      rfl
    | ok t =>
      rw [pushed] at uncut
      rw [push_raise (pushed ▸ uncut_ok t), pushed]
      exact ih uncut

theorem popMany_raise (limit : Nat) (s : DataStack) (floor n : Nat) :
    (s.raise limit).popMany floor n = (s.popMany floor n).map (Prod.map id (raise limit)) := by
  unfold popMany
  rw [require_raise]
  cases s.require floor n <;> rfl

theorem pop_raise (limit : Nat) (s : DataStack) (floor : Nat) :
    (s.raise limit).pop floor = (s.pop floor).map (Prod.map id (raise limit)) := by
  rw [pop_eq, pop_eq, popMany_raise]
  cases s.popMany floor 1 <;> rfl

theorem dup_raise {depth : Nat} (uncut : Uncut (s.dup floor depth)) :
    (s.raise limit).dup floor depth = (s.dup floor depth).map (raise limit) := by
  unfold dup at uncut ⊢
  rw [require_raise]
  cases enough : s.require floor depth with
  | error e => rfl
  | ok u =>
    rw [enough] at uncut
    have words : (s.raise limit).words = s.words := rfl
    dsimp only
    rw [words]
    cases found : s.words[depth - 1]? with
    | none => rfl
    | some w =>
      simp only [found] at uncut
      exact push_raise uncut

theorem swap_raise (limit : Nat) (s : DataStack) (floor depth : Nat) :
    (s.raise limit).swap floor depth = (s.swap floor depth).map (raise limit) := by
  unfold swap
  rw [require_raise]
  cases s.require floor (depth + 1) <;> rfl

theorem accommodates_raise {inputs outputs : Nat} (uncut : Uncut (s.accommodates floor inputs outputs)) :
    (s.raise limit).accommodates floor inputs outputs = s.accommodates floor inputs outputs := by
  unfold accommodates at uncut ⊢
  rw [require_raise]
  cases enough : s.require floor inputs with
  | error e => rfl
  | ok u =>
    simp only [enough] at uncut
    by_cases room : s.height - inputs + outputs ≤ s.limit
    · have higher : s.height - inputs + outputs ≤ max s.limit limit :=
        Nat.le_trans room (Nat.le_max_left _ _)
      simp [raise, room, higher]
    · have cut := uncut _ (if_neg room)
      cases cut

end DataStack

theorem StackOp.apply_raise {s : DataStack} {limit floor : Nat} {op : StackOp}
    (uncut : Uncut ((op.apply floor s).mapError Prod.fst)) :
    op.apply floor (s.raise limit) = DataStack.onStacks (DataStack.raise limit) (op.apply floor s) := by
  cases op with
  | binary op =>
    rw [apply] at uncut
    rw [apply, apply, DataStack.pop_raise]
    refine DataStack.keep_map_bind ?_
    intro a t first
    dsimp only
    rw [DataStack.pop_raise]
    refine DataStack.keep_map_bind ?_
    intro b u second
    dsimp only
    have later := DataStack.uncut_keep_bind uncut first
    have pushed := DataStack.uncut_keep_bind later second
    rw [DataStack.push_raise (DataStack.uncut_keep pushed), DataStack.keep_map]
  | unary op =>
    rw [apply] at uncut
    rw [apply, apply, DataStack.pop_raise]
    refine DataStack.keep_map_bind ?_
    intro a t first
    dsimp only
    have pushed := DataStack.uncut_keep_bind uncut first
    rw [DataStack.push_raise (DataStack.uncut_keep pushed), DataStack.keep_map]
  | pop =>
    rw [apply, apply, DataStack.pop_raise]
    exact DataStack.keep_map_bind fun _ _ _ => rfl
  | nop => rfl
  | push data => rw [apply, apply, DataStack.push_raise (DataStack.uncut_keep uncut), DataStack.keep_map]
  | dup depth => rw [apply, apply, DataStack.dup_raise (DataStack.uncut_keep uncut), DataStack.keep_map]
  | swap depth => rw [apply, apply, DataStack.swap_raise, DataStack.keep_map]

namespace ReturnStack

variable {s : ReturnStack} {limit : Nat} {f : Frame}

def raise (limit : Nat) (s : ReturnStack) : ReturnStack :=
  { s with limit := max s.limit limit }

theorem isFull_raise (free : s.isFull = false) : (s.raise limit).isFull = false := by
  have room := isFull_eq_false.1 free
  exact isFull_eq_false.2 (Nat.lt_of_lt_of_le room (Nat.le_max_left _ _))

theorem push_raise (uncut : Uncut (s.push f)) :
    (s.raise limit).push f = (s.push f).map (raise limit) := by
  cases free : s.isFull with
  | true =>
    have cut := uncut (.returnStackOverflow s.limit) (by simp [push, free])
    nomatch cut
  | false =>
    have higher : (s.raise limit).isFull = false := isFull_raise free
    rw [push, push, if_neg (by simp [higher]), if_neg (by simp [free])]
    rfl

theorem pop?_raise (limit : Nat) (s : ReturnStack) :
    (s.raise limit).pop? = s.pop?.map (Prod.map id (raise limit)) := by
  obtain ⟨most, frames, depth, same⟩ := s
  cases frames <;> rfl

end ReturnStack

namespace Context

def raise (limits : Limits) (ctx : Context) : Context :=
  { ctx with
    stack := ctx.stack.raise limits.stackLimit
    returns := ctx.returns.raise limits.returnLimit }

variable (limits : Limits) (ctx : Context)

@[simp] theorem index_raise : (ctx.raise limits).index = ctx.index := rfl

@[simp] theorem pc_raise : (ctx.raise limits).pc = ctx.pc := rfl

@[simp] theorem stack_raise : (ctx.raise limits).stack = ctx.stack.raise limits.stackLimit := rfl

@[simp] theorem returns_raise : (ctx.raise limits).returns = ctx.returns.raise limits.returnLimit := rfl

@[simp] theorem floor_raise : (ctx.raise limits).floor = ctx.floor := rfl

theorem raise_initial {l l' : Limits} (le : l ≤ l') : (initial l).raise l' = initial l' := by
  obtain ⟨words, frames, _⟩ := le
  simp [raise, initial, DataStack.raise, DataStack.empty, ReturnStack.raise, ReturnStack.initial,
    Nat.max_eq_right words, Nat.max_eq_right frames]

end Context

namespace GasMeter

def raise (limit : UInt64) (m : GasMeter) : GasMeter :=
  { m with limit := max m.limit limit }

theorem raise_full {limit limit' : UInt64} (le : limit ≤ limit') :
    (full limit).raise limit' = full limit' := by
  have higher : max limit limit' = limit' := if_pos le
  simp [raise, full, higher]

theorem le_raise (limit : UInt64) (m : GasMeter) : m.limit ≤ (m.raise limit).limit := by
  by_cases higher : m.limit ≤ limit
  · have same : (m.raise limit).limit = limit := if_pos higher
    rwa [same]
  · have same : (m.raise limit).limit = m.limit := if_neg higher
    rw [same]
    exact UInt64.le_refl _

theorem charge_raise {limit amount : UInt64} {m : GasMeter} (uncut : Uncut (m.charge amount).1) :
    (m.raise limit).charge amount = ((m.charge amount).1, (m.charge amount).2.raise limit) := by
  unfold charge at uncut ⊢
  change (if UInt64.size ≤ m.used.toNat + amount.toNat then _ else _) = _
  by_cases large : UInt64.size ≤ m.used.toNat + amount.toNat
  · rw [if_pos large] at uncut
    nomatch uncut _ rfl
  · rw [if_neg large] at uncut ⊢
    by_cases short : m.limit < m.used + amount
    · rw [if_pos short] at uncut
      nomatch uncut _ rfl
    · have enough := UInt64.le_trans (UInt64.not_lt.1 short) (m.le_raise limit)
      change (if (m.raise limit).limit < m.used + amount then _ else _) = _
      rw [if_neg large, if_neg short, if_neg (UInt64.not_lt.2 enough)]
      rfl

end GasMeter
end EvmObject
