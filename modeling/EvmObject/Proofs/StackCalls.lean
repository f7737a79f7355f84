import EvmObject.Machine.DataStack.Lemmas
/-!
Calls on a data stack one after the other, with floors and counts of any size. `Pile` carries them out in one row of
cells, step by step, so that a call could leave the row changed and fail then. Main statement: no call does, each has
just the effect that its rule says, and none reaches below its floor or past the limit (`calls_lawful`).
-/
namespace EvmObject

/-- A call on a data stack. The word to copy is named by how many lie above it. -/
inductive StackCall where
  | push (w : Word)
  | pop (floor : Nat)
  | popMany (floor n : Nat)
  | dup (floor above : Nat)
  | swap (floor depth : Nat)

/-- A stack as a row of cells, the bottom one first, that operations change in place. -/
structure Pile where
  limit : Nat
  cells : List Word

/-- Changes a pile on the way to a value or to a halt; after a halt it is as it was when that arose. -/
abbrev Edit := EStateM Halt Pile

namespace Pile

def require (floor n : Nat) : Edit Unit := do
  let p ← get
  let available := p.cells.length - floor
  if available < n then throw (.stackUnderflow n available)

def push (w : Word) : Edit Unit := do
  let p ← get
  if p.limit ≤ p.cells.length then throw (.stackOverflow p.limit)
  set { p with cells := p.cells ++ [w] }

def pop (floor : Nat) : Edit Word := do
  require floor 1
  let p ← get
  set { p with cells := p.cells.dropLast }
  p.cells.getLast?.elim (throw (.stackUnderflow 1 0)) pure

def popMany (floor n : Nat) : Edit (List Word) := do
  require floor n
  let p ← get
  let place := p.cells.length - n
  set { p with cells := p.cells.take place }
  return p.cells.drop place

/-- `depth` counts from one at the top. -/
def dup (floor depth : Nat) : Edit Unit := do
  require floor depth
  let p ← get
  push (p.cells.getD (p.cells.length - depth) 0#256)

def exchange (i j : Nat) (cells : List Word) : List Word :=
  (cells.set i (cells.getD j 0#256)).set j (cells.getD i 0#256)

def swap (floor depth : Nat) : Edit Unit := do
  require floor (depth + 1)
  let p ← get
  let top := p.cells.length - 1
  set { p with cells := exchange top (top - depth) p.cells }

end Pile

def DataStack.pile (s : DataStack) : Pile := ⟨s.limit, s.slots⟩

namespace StackCall

variable {s t : DataStack} {p : Pile} {call : StackCall} {ws : List Word} {reason : Halt}
  {floor n i depth limit : Nat}

/-- The words that a call gives back, deepest first, and the stack that it leaves. -/
def answer (s : DataStack) : StackCall → Except Halt (List Word × DataStack)
  | push w => (s.push w).map fun t => ([], t)
  | pop floor => (s.pop floor).map fun r => ([r.1], r.2)
  | popMany floor n => s.popMany floor n
  | dup floor above => (s.dup floor (above + 1)).map fun t => ([], t)
  | swap floor depth => (s.swap floor depth).map fun t => ([], t)

def edit : StackCall → Edit (List Word)
  | push w => do
    Pile.push w
    return []
  | pop floor => do
    let w ← Pile.pop floor
    return [w]
  | popMany floor n => Pile.popMany floor n
  | dup floor above => do
    Pile.dup floor (above + 1)
    return []
  | swap floor depth => do
    Pile.swap floor depth
    return []

/-- The rules of the calls: when one succeeds, the words that it gives back and the slots that it leaves. -/
def Effect (s : DataStack) (ws slots : List Word) : StackCall → Prop
  | push w => s.height < s.limit ∧ ws = [] ∧ slots = s.slots ++ [w]
  | pop floor => ∃ i, i + 1 = s.height ∧ floor ≤ i ∧ ws = s.slots.drop i ∧ slots = s.slots.take i
  | popMany floor n => ∃ i, i + n = s.height ∧ (∀ j, i ≤ j → j < s.height → floor ≤ j) ∧
      ws = s.slots.drop i ∧ slots = s.slots.take i
  | dup floor above => s.height < s.limit ∧ ∃ i w, i + above + 1 = s.height ∧ floor ≤ i ∧
      s.slots[i]? = some w ∧ ws = [] ∧ slots = s.slots ++ [w]
  | swap floor depth => ∃ i low top, i + depth + 1 = s.height ∧ floor ≤ i ∧
      s.slots[i]? = some low ∧ s.slots[i + depth]? = some top ∧
      ws = [] ∧ slots = (s.slots.set (i + depth) low).set i top

/-- The slots below this one are out of reach; a push reaches none that is there. -/
def lowest (s : DataStack) : StackCall → Nat
  | push _ => s.height
  | pop floor => floor
  | popMany floor _ => floor
  | dup floor _ => floor
  | swap floor _ => floor

/-! ### The rules -/

theorem map_eq_ok {α β : Type} {x : Except Halt α} {f : α → β} {b : β} :
    x.map f = .ok b ↔ ∃ a, x = .ok a ∧ f a = b := by
  cases x <;> simp [Except.map]

theorem cut_iff {slots left : List Word} : (ws.length = n ∧ slots = left ++ ws) ↔
    ∃ i, i + n = slots.length ∧ ws = slots.drop i ∧ left = slots.take i := by
  constructor
  · rintro ⟨rfl, rfl⟩
    exact ⟨left.length, by simp, by simp, by simp⟩
  · rintro ⟨i, total, rfl, rfl⟩
    refine ⟨?_, (List.take_append_drop i slots).symm⟩
    rw [List.length_drop]
    omega

theorem visible_iff (place : i + n = s.height) :
    n ≤ s.visible floor ↔ ∀ j, i ≤ j → j < s.height → floor ≤ j := by
  rw [DataStack.visible]
  constructor
  · intro enough j start below
    omega
  · intro above
    -- No words are visible under any floor, also under one above the whole stack.
    by_cases none : n = 0
    · omega
    · have := above i (Nat.le_refl i) (by omega)
      omega

theorem words_getElem? (place : i + depth + 1 = s.height) : s.words[depth]? = s.slots[i]? := by
  have mirrored := List.getElem?_reverse (l := s.words) (i := i) (by rw [← s.height_eq]; omega)
  rw [DataStack.slots, mirrored, ← s.height_eq]
  congr 1
  omega

theorem reverse_set {words : List Word} {w : Word} (within : i < words.length) :
    (words.set i w).reverse = words.reverse.set (words.length - 1 - i) w := by
  induction words generalizing i with
  | nil => rfl
  | cons v words ih =>
    obtain _ | i := i
    · simp
    · rw [List.length_cons] at within
      have place : (v :: words).length - 1 - (i + 1) = words.length - 1 - i := by
        rw [List.length_cons]
        omega
      rw [List.set_cons_succ, List.reverse_cons, List.reverse_cons, ih (by omega), place,
        List.set_append_left _ _ (by rw [List.length_reverse]; omega)]

theorem slots_exchange {bottom top : Word} (place : i + depth + 1 = s.height) (first : s.slots[i]? = some bottom)
    (last : s.slots[i + depth]? = some top) : (DataStack.exchange depth s.words).reverse =
      (s.slots.set (i + depth) bottom).set i top := by
  have topmost : s.words[0]? = s.slots[i + depth]? := words_getElem? place
  rw [← words_getElem? place] at first
  rw [← topmost] at last
  have bound := s.height_eq
  rw [DataStack.exchange, first, last]
  dsimp only
  rw [reverse_set (by rw [List.length_set]; omega), reverse_set (by omega), List.length_set, ← bound,
    DataStack.slots]
  congr 2
  · omega
  · omega

theorem popMany_iff : answer s (.popMany floor n) = .ok (ws, t) ↔
    t.limit = s.limit ∧ Effect s ws t.slots (.popMany floor n) := by
  rw [answer, DataStack.popMany_eq_ok, Effect]
  constructor
  · rintro ⟨enough, counted, limits, shape⟩
    obtain ⟨i, place, taken, left⟩ := cut_iff.1 ⟨counted, shape⟩
    rw [DataStack.length_slots] at place
    exact ⟨limits, i, place, (visible_iff place).1 enough, taken, left⟩
  · rintro ⟨limits, i, place, above, taken, left⟩
    obtain ⟨counted, shape⟩ := cut_iff.2 ⟨i, by rwa [DataStack.length_slots], taken, left⟩
    exact ⟨(visible_iff place).2 above, counted, limits, shape⟩

theorem pop_iff : answer s (.pop floor) = .ok (ws, t) ↔
    t.limit = s.limit ∧ Effect s ws t.slots (.pop floor) := by
  simp only [answer, map_eq_ok, Prod.exists, DataStack.pop_eq_ok, Prod.mk.injEq, Effect]
  constructor
  · rintro ⟨w, _, ⟨above, limits, shape⟩, rfl, rfl⟩
    obtain ⟨i, place, taken, left⟩ := cut_iff.1 ⟨List.length_singleton, shape⟩
    rw [DataStack.length_slots] at place
    exact ⟨limits, i, place, by omega, taken, left⟩
  · rintro ⟨limits, i, place, above, taken, left⟩
    obtain ⟨counted, shape⟩ := cut_iff.2 ⟨i, by rwa [DataStack.length_slots], taken, left⟩
    obtain ⟨w, rfl⟩ := List.length_eq_one_iff.1 counted
    exact ⟨w, t, ⟨by omega, limits, shape⟩, rfl, rfl⟩

theorem dup_iff : answer s (.dup floor n) = .ok (ws, t) ↔
    t.limit = s.limit ∧ Effect s ws t.slots (.dup floor n) := by
  simp only [answer, map_eq_ok, DataStack.dup_eq_ok, DataStack.push_eq_ok, DataStack.visible, Prod.mk.injEq,
    Effect]
  constructor
  · rintro ⟨_, ⟨enough, w, found, room, limits, shape⟩, rfl, rfl⟩
    have place : s.height - 1 - n + n + 1 = s.height := by omega
    rw [words_getElem? place] at found
    exact ⟨limits, room, _, w, place, by omega, found, rfl, shape⟩
  · rintro ⟨limits, room, i, w, place, above, found, rfl, shape⟩
    rw [← words_getElem? place] at found
    exact ⟨t, ⟨by omega, w, found, room, limits, shape⟩, rfl, rfl⟩

theorem exists_slot (enough : depth < s.visible floor) :
    ∃ i bottom top, i + depth + 1 = s.height ∧ floor ≤ i ∧ s.slots[i]? = some bottom ∧
      s.slots[i + depth]? = some top := by
  rw [DataStack.visible] at enough
  have low : s.height - 1 - depth < s.slots.length := by
    rw [DataStack.length_slots]
    omega
  have high : s.height - 1 - depth + depth < s.slots.length := by
    rw [DataStack.length_slots]
    omega
  exact ⟨_, _, _, by omega, by omega, List.getElem?_eq_getElem low, List.getElem?_eq_getElem high⟩

theorem swap_iff : answer s (.swap floor n) = .ok (ws, t) ↔
    t.limit = s.limit ∧ Effect s ws t.slots (.swap floor n) := by
  simp only [answer, map_eq_ok, DataStack.swap_eq_ok, Prod.mk.injEq, Effect]
  constructor
  · rintro ⟨_, ⟨enough, limits, shape⟩, rfl, rfl⟩
    obtain ⟨i, bottom, top, place, above, first, last⟩ := exists_slot enough
    have slots := slots_exchange place first last
    rw [← shape] at slots
    exact ⟨limits, i, bottom, top, place, above, first, last, rfl, slots⟩
  · rintro ⟨limits, i, bottom, top, place, above, first, last, rfl, slots⟩
    have enough : n < s.visible floor := by
      rw [DataStack.visible]
      omega
    rw [← slots_exchange place first last] at slots
    exact ⟨t, ⟨enough, limits, List.reverse_inj.1 slots⟩, rfl, rfl⟩

theorem answer_eq_ok : call.answer s = .ok (ws, t) ↔ t.limit = s.limit ∧ Effect s ws t.slots call := by
  cases call with
  | push w =>
    simp only [answer, map_eq_ok, DataStack.push_eq_ok, Prod.mk.injEq, Effect]
    constructor
    · rintro ⟨_, ⟨room, limits, slots⟩, rfl, rfl⟩
      exact ⟨limits, room, rfl, slots⟩
    · rintro ⟨limits, room, rfl, slots⟩
      exact ⟨t, ⟨room, limits, slots⟩, rfl, rfl⟩
  | pop floor => exact pop_iff
  | popMany floor n => exact popMany_iff
  | dup floor n => exact dup_iff
  | swap floor n => exact swap_iff

/-! ### Calls in place -/

/-- A result in place: the value with the cells of the stack left, or the halt with those of the stack before. -/
def outcome {α : Type} (s : DataStack) : Except Halt (α × DataStack) → EStateM.Result Halt Pile α
  | .ok (a, t) => .ok a t.pile
  | .error reason => .error reason s.pile

theorem bind_ok {α β : Type} {x : Edit α} {f : α → Edit β} {a : α} {q : Pile} (h : x p = .ok a q) :
    (x >>= f) p = f a q := by
  change EStateM.bind x f p = _
  rw [EStateM.bind, h]

theorem bind_error {α β : Type} {x : Edit α} {f : α → Edit β} {q : Pile} (h : x p = .error reason q) :
    (x >>= f) p = .error reason q := by
  change EStateM.bind x f p = _
  rw [EStateM.bind, h]

theorem outcome_eq_error {α : Type} {y : Except Halt (α × DataStack)} :
    outcome s y = .error reason p ↔ y = .error reason ∧ p = s.pile := by
  cases y with
  | ok r => simp [outcome]
  | error e => simp [outcome, eq_comm]

theorem outcome_eq_ok {α : Type} {y : Except Halt (α × DataStack)} {a : α} :
    outcome s y = .ok a p ↔ ∃ t, y = .ok (a, t) ∧ p = t.pile := by
  cases y with
  | error e => simp [outcome]
  | ok r =>
    constructor
    · intro same
      cases same
      exact ⟨r.2, rfl, rfl⟩
    · rintro ⟨t, same, rfl⟩
      cases same
      rfl

theorem require_of_le (enough : n ≤ s.visible floor) : Pile.require floor n s.pile = .ok () s.pile := by
  have few : ¬ s.pile.cells.length - floor < n := by
    rw [DataStack.pile, DataStack.length_slots]
    exact Nat.not_lt.2 enough
  change (if s.pile.cells.length - floor < n then _ else _ : Edit Unit) s.pile = _
  rw [if_neg few]
  rfl

theorem require_of_lt (few : s.visible floor < n) :
    Pile.require floor n s.pile = .error (.stackUnderflow n (s.visible floor)) s.pile := by
  have short : s.pile.cells.length - floor = s.visible floor := by
    rw [DataStack.pile, DataStack.length_slots, DataStack.visible]
  change (if s.pile.cells.length - floor < n then _ else _ : Edit Unit) s.pile = _
  rw [short, if_pos few]
  rfl

/-- What starts by requiring words that are visible goes on, and fails at once where they are not. -/
theorem require_pile {α : Type} {x : Unit → Edit α} {y : Except Halt (α × DataStack)}
    (passes : n ≤ s.visible floor → x () s.pile = outcome s y)
    (fails : s.visible floor < n → y = .error (.stackUnderflow n (s.visible floor))) :
    (Pile.require floor n >>= x) s.pile = outcome s y := by
  by_cases enough : n ≤ s.visible floor
  · rw [bind_ok (require_of_le enough), passes enough]
  · have few := Nat.lt_of_not_le enough
    rw [bind_error (require_of_lt few), fails few, outcome]

theorem pile_eq {cells : List Word} (limits : t.limit = s.limit) (slots : t.slots = cells) :
    t.pile = ⟨s.limit, cells⟩ := by
  rw [DataStack.pile, limits, slots]

theorem push_pile (s : DataStack) (w : Word) :
    Pile.push w s.pile = outcome s ((s.push w).map fun t => ((), t)) := by
  have total : s.pile.cells.length = s.height := s.length_slots
  change (if s.limit ≤ s.pile.cells.length then _ else _ : Edit Unit) s.pile = _
  rw [total]
  by_cases full : s.limit ≤ s.height
  · rw [if_pos full, DataStack.push_eq_error.2 ⟨full, rfl⟩]
    rfl
  · rw [if_neg full]
    cases pushed : s.push w with
    | error reason => exact absurd (DataStack.push_eq_error.1 pushed).1 full
    | ok t =>
      obtain ⟨_, limits, slots⟩ := DataStack.push_eq_ok.1 pushed
      rw [Except.map, outcome, pile_eq limits slots]
      rfl

theorem pop_pile (s : DataStack) (floor : Nat) : Pile.pop floor s.pile = outcome s (s.pop floor) := by
  refine require_pile (fun enough => ?_) fun few => ?_
  · obtain ⟨w, t, popped⟩ := DataStack.pop_of_le enough
    obtain ⟨_, limits, slots⟩ := DataStack.pop_eq_ok.1 popped
    rw [popped, outcome, pile_eq limits rfl]
    change (s.slots.getLast?.elim (throw _) pure : Edit Word) ⟨s.limit, s.slots.dropLast⟩ = _
    rw [slots, List.getLast?_concat, List.dropLast_concat]
    rfl
  · have none : s.visible floor = 0 := Nat.lt_one_iff.1 few
    rw [none]
    exact DataStack.pop_eq_error.2 ⟨Nat.le_of_sub_eq_zero none, rfl⟩

theorem popMany_pile (s : DataStack) (floor n : Nat) :
    Pile.popMany floor n s.pile = outcome s (s.popMany floor n) := by
  refine require_pile (fun enough => ?_) fun few => DataStack.popMany_eq_error.2 ⟨few, rfl⟩
  obtain ⟨ws, t, taken⟩ := DataStack.popMany_of_le enough
  obtain ⟨_, counted, limits, shape⟩ := DataStack.popMany_eq_ok.1 taken
  obtain ⟨i, place, cut, left⟩ := cut_iff.1 ⟨counted, shape⟩
  rw [taken, outcome, pile_eq limits left, cut]
  have start : s.slots.length - n = i := by omega
  rw [← start]
  rfl

theorem dup_pile (s : DataStack) (floor above : Nat) : Pile.dup floor (above + 1) s.pile =
    outcome s ((s.dup floor (above + 1)).map fun t => ((), t)) := by
  refine require_pile (fun enough => ?_) fun few => ?_
  · obtain ⟨i, w, _, place, _, found, _⟩ := exists_slot enough
    have copied : s.dup floor (above + 1) = s.push w := by
      rw [DataStack.dup, DataStack.require_eq_ok.2 enough, Nat.add_sub_cancel, words_getElem? place, found]
    rw [copied, ← push_pile]
    change Pile.push (s.slots.getD (s.slots.length - (above + 1)) 0#256) s.pile = _
    have start : s.slots.length - (above + 1) = i := by
      rw [DataStack.length_slots]
      omega
    rw [start, List.getD_eq_getElem?_getD, found, Option.getD_some]
  · rw [DataStack.dup, DataStack.require_eq_error.2 ⟨few, rfl⟩]
    rfl

theorem swap_pile (s : DataStack) (floor depth : Nat) : Pile.swap floor depth s.pile =
    outcome s ((s.swap floor depth).map fun t => ((), t)) := by
  refine require_pile (fun enough => ?_) fun few => ?_
  · cases swapped : s.swap floor depth with
    | error reason =>
      rw [DataStack.swap_eq_error, DataStack.require_eq_ok.2 enough] at swapped
      cases swapped
    | ok t =>
      have answered : answer s (.swap floor depth) = .ok ([], t) := by rw [answer, swapped, Except.map]
      obtain ⟨limits, i, low, top, place, _, first, last, _, slots⟩ := swap_iff.1 answered
      rw [Except.map, outcome, pile_eq limits slots]
      have topmost : s.slots.length - 1 = i + depth := by
        rw [DataStack.length_slots]
        omega
      change EStateM.Result.ok () (Pile.mk s.limit
        (Pile.exchange (s.slots.length - 1) (s.slots.length - 1 - depth) s.slots)) = _
      rw [topmost, Nat.add_sub_cancel, Pile.exchange, List.getD_eq_getElem?_getD, first,
        List.getD_eq_getElem?_getD, last, Option.getD_some, Option.getD_some]
  · rw [DataStack.swap, DataStack.require_eq_error.2 ⟨few, rfl⟩]
    rfl

theorem give_pile {α : Type} {x : Edit α} {y : Except Halt (α × DataStack)} (f : α → List Word)
    (same : x s.pile = outcome s y) :
    (x >>= fun a => pure (f a)) s.pile = outcome s (y.map fun r => (f r.1, r.2)) := by
  cases y with
  | error reason => exact bind_error same
  | ok r => exact bind_ok same

theorem edit_pile (s : DataStack) (call : StackCall) : call.edit s.pile = outcome s (call.answer s) := by
  cases call with
  | push w =>
    rw [edit, give_pile (fun _ => []) (push_pile s w), answer]
    cases s.push w <;> rfl
  | pop floor => exact give_pile (fun w => [w]) (pop_pile s floor)
  | popMany floor n => exact popMany_pile s floor n
  | dup floor above =>
    rw [edit, give_pile (fun _ => []) (dup_pile s floor above), answer]
    cases s.dup floor (above + 1) <;> rfl
  | swap floor depth =>
    rw [edit, give_pile (fun _ => []) (swap_pile s floor depth), answer]
    cases s.swap floor depth <;> rfl

/-! ### Any calls one after the other -/

/-- The stack that a call leaves: the one before if it fails. -/
def next (s : DataStack) (call : StackCall) : DataStack :=
  match call.answer s with
  | .ok (_, t) => t
  | .error _ => s

def left (p : Pile) (call : StackCall) : Pile :=
  match call.edit p with
  | .ok _ q => q
  | .error _ q => q

theorem left_pile (s : DataStack) (call : StackCall) : left s.pile call = (next s call).pile := by
  rw [left, next, edit_pile]
  cases call.answer s <;> rfl

theorem foldl_left (s : DataStack) (calls : List StackCall) :
    calls.foldl left s.pile = (calls.foldl next s).pile := by
  induction calls generalizing s with
  | nil => rfl
  | cons call calls ih => rw [List.foldl_cons, left_pile, ih, List.foldl_cons]

theorem take_take_of_le {words : List Word} (le : floor ≤ i) : (words.take i).take floor = words.take floor := by
  rw [List.take_take, Nat.min_eq_left le]

theorem Effect.keeps {slots : List Word} (effect : Effect s ws slots call) (within : s.height ≤ s.limit) :
    slots.take (call.lowest s) = s.slots.take (call.lowest s) ∧ slots.length ≤ s.limit := by
  have total := s.length_slots
  cases call with
  | push w =>
    obtain ⟨room, _, rfl⟩ := effect
    refine ⟨List.take_append_of_le_length (Nat.le_of_eq total.symm), ?_⟩
    rw [List.length_append, List.length_singleton, total]
    exact room
  | pop floor =>
    obtain ⟨i, place, above, _, rfl⟩ := effect
    refine ⟨take_take_of_le above, ?_⟩
    rw [List.length_take]
    omega
  | popMany floor n =>
    obtain ⟨i, place, above, _, rfl⟩ := effect
    refine ⟨?_, ?_⟩
    · by_cases none : n = 0
      · rw [List.take_of_length_le (i := i) (by omega)]
      · exact take_take_of_le (above i (Nat.le_refl i) (by omega))
    · rw [List.length_take]
      omega
  | dup floor n =>
    obtain ⟨room, i, w, place, above, _, _, rfl⟩ := effect
    refine ⟨List.take_append_of_le_length ?_, ?_⟩
    · rw [total]
      exact Nat.le_trans above (by omega)
    · rw [List.length_append, List.length_singleton, total]
      exact room
  | swap floor n =>
    obtain ⟨i, low, top, place, above, _, _, _, rfl⟩ := effect
    refine ⟨?_, ?_⟩
    · exact (List.take_set_of_le above).trans
        (List.take_set_of_le (Nat.le_trans above (Nat.le_add_right i n)))
    · rw [List.length_set, List.length_set, total]
      exact within

theorem next_keeps (within : s.height ≤ s.limit) (call : StackCall) :
    (next s call).limit = s.limit ∧ (next s call).height ≤ s.limit ∧
      (next s call).slots.take (call.lowest s) = s.slots.take (call.lowest s) := by
  rw [next]
  split
  · rename_i ws t answered
    obtain ⟨limits, effect⟩ := answer_eq_ok.1 answered
    obtain ⟨kept, bounded⟩ := effect.keeps within
    rw [DataStack.length_slots] at bounded
    exact ⟨limits, bounded, kept⟩
  · exact ⟨rfl, within, rfl⟩

theorem foldl_next_within (within : s.height ≤ s.limit) (calls : List StackCall) :
    (calls.foldl next s).limit = s.limit ∧ (calls.foldl next s).height ≤ s.limit := by
  induction calls generalizing s with
  | nil => exact ⟨rfl, within⟩
  | cons call calls ih =>
    obtain ⟨limits, bounded, _⟩ := next_keeps within call
    rw [← limits] at bounded ⊢
    exact ih bounded

/-- So many words taken off one by one, the topmost first. -/
def pops (s : DataStack) (floor : Nat) : Nat → Except Halt (List Word × DataStack)
  | 0 => .ok ([], s)
  | n + 1 => do
    let (w, t) ← s.pop floor
    let (ws, u) ← pops t floor n
    return (w :: ws, u)

theorem pops_succ_eq_ok : pops s floor (n + 1) = .ok (ws, t) ↔
    ∃ w u vs, s.pop floor = .ok (w, u) ∧ pops u floor n = .ok (vs, t) ∧ ws = w :: vs := by
  rw [pops, bind_eq_ok]
  constructor
  · rintro ⟨⟨w, u⟩, popped, rest⟩
    obtain ⟨⟨vs, t'⟩, others, same⟩ := bind_eq_ok.1 rest
    cases same
    exact ⟨w, u, vs, popped, others, rfl⟩
  · rintro ⟨w, u, vs, popped, others, rfl⟩
    exact ⟨(w, u), popped, bind_eq_ok.2 ⟨(vs, t), others, rfl⟩⟩

theorem pops_eq_ok : pops s floor n = .ok (ws, t) ↔
    n ≤ s.visible floor ∧ ws.length = n ∧ t.limit = s.limit ∧ s.slots = t.slots ++ ws.reverse := by
  induction n generalizing s ws with
  | zero =>
    rw [pops, List.length_eq_zero_iff]
    constructor
    · intro same
      cases same
      exact ⟨Nat.zero_le _, rfl, rfl, (List.append_nil _).symm⟩
    · rintro ⟨_, rfl, limits, shape⟩
      rw [List.reverse_nil, List.append_nil] at shape
      rw [DataStack.ext_slots limits shape.symm]
  | succ n ih =>
    rw [pops_succ_eq_ok]
    constructor
    · rintro ⟨w, u, vs, popped, others, rfl⟩
      obtain ⟨above, limits, shape⟩ := DataStack.pop_eq_ok.1 popped
      obtain ⟨_, less, _⟩ := DataStack.height_pop popped
      obtain ⟨enough, counted, limits', shape'⟩ := ih.1 others
      unfold DataStack.visible at enough ⊢
      refine ⟨by omega, by rw [List.length_cons, counted], limits'.trans limits, ?_⟩
      rw [shape, shape', List.reverse_cons, List.append_assoc]
    · rintro ⟨enough, counted, limits, shape⟩
      obtain _ | ⟨w, vs⟩ := ws
      · cases counted
      · obtain ⟨w', u, popped⟩ := DataStack.pop_of_le (Nat.le_trans (Nat.le_add_left 1 n) enough)
        obtain ⟨above, limits', shape'⟩ := DataStack.pop_eq_ok.1 popped
        obtain ⟨_, less, _⟩ := DataStack.height_pop popped
        rw [List.reverse_cons, ← List.append_assoc, shape'] at shape
        obtain ⟨front, last⟩ := List.append_inj' shape rfl
        cases last
        unfold DataStack.visible at enough
        refine ⟨w, u, vs, popped, ih.2 ⟨?_, Nat.succ.inj counted, limits.trans limits'.symm, front⟩, rfl⟩
        rw [DataStack.visible]
        omega

theorem popMany_eq_ok_iff : s.popMany floor n = .ok (ws, t) ↔ pops s floor n = .ok (ws.reverse, t) := by
  rw [pops_eq_ok, DataStack.popMany_eq_ok, List.length_reverse, List.reverse_reverse]

/-- After any calls on an empty stack, made in place and going on past failures, the cells are those of the stack
to which the same calls lead, and no more than its limit. Whatever the next call is, it fails in place just where it
fails on that stack, and leaves all cells as they are then; it succeeds just where its rule allows it, and leaves the
slots that the rule says, with those below its floor as they were. Taking many words off succeeds just if taking them
off one by one does, and gives the same words in the other order and the same stack. -/
theorem calls_lawful {calls : List StackCall} (history : calls.foldl next (DataStack.empty limit) = s)
    (call : StackCall) :
    calls.foldl left ⟨limit, []⟩ = s.pile ∧ s.limit = limit ∧ s.height ≤ limit ∧
    (∀ reason p, call.edit s.pile = .error reason p ↔ call.answer s = .error reason ∧ p = s.pile) ∧
    (∀ ws p, call.edit s.pile = .ok ws p ↔ ∃ t, call.answer s = .ok (ws, t) ∧ p = t.pile) ∧
    (∀ ws t, call.answer s = .ok (ws, t) ↔ t.limit = limit ∧ Effect s ws t.slots call) ∧
    (next s call).slots.take (call.lowest s) = s.slots.take (call.lowest s) ∧
    ∀ floor n ws t, s.popMany floor n = .ok (ws, t) ↔ pops s floor n = .ok (ws.reverse, t) := by
  have within : (DataStack.empty limit).height ≤ (DataStack.empty limit).limit := Nat.zero_le limit
  obtain ⟨limits, bounded⟩ := foldl_next_within within calls
  rw [history] at limits bounded
  have limited : s.limit = limit := limits
  have bound : s.height ≤ limit := bounded
  refine ⟨history ▸ foldl_left (DataStack.empty limit) calls, limited, bound, ?_, ?_, ?_,
    (next_keeps (limited.symm ▸ bound) call).2.2, fun _ _ _ _ => popMany_eq_ok_iff⟩
  · intro reason p
    rw [edit_pile, outcome_eq_error]
  · intro ws p
    rw [edit_pile, outcome_eq_ok]
  · intro ws t
    rw [← limited]
    exact answer_eq_ok

/-- Two words fill a stack, the copy of a word is refused, and so are two words above a floor of one. -/
def brim : List StackCall := [.push 5#256, .push 7#256, .dup 0 1, .popMany 1 2]

/-- After these calls two words above a floor of one are not exchanged, and the one that is there is taken off. -/
theorem calls_lawful_brim :
    brim.foldl left ⟨2, []⟩ = ⟨2, [5#256, 7#256]⟩ ∧
    (swap 1 1).edit ⟨2, [5#256, 7#256]⟩ = .error (.stackUnderflow 2 1) ⟨2, [5#256, 7#256]⟩ ∧
    (pop 1).edit ⟨2, [5#256, 7#256]⟩ = .ok [7#256] ⟨2, [5#256]⟩ := by
  have history : brim.foldl next (DataStack.empty 2) = brim.foldl next (DataStack.empty 2) := rfl
  have shown : (brim.foldl next (DataStack.empty 2)).pile = ⟨2, [5#256, 7#256]⟩ := rfl
  obtain ⟨same, _, _, fails, _⟩ := calls_lawful history (swap 1 1)
  obtain ⟨_, _, _, _, succeeds, _⟩ := calls_lawful history (pop 1)
  rw [shown] at same fails succeeds
  exact ⟨same, (fails _ _).2 ⟨rfl, rfl⟩, (succeeds _ _).2 ⟨_, rfl, rfl⟩⟩

end StackCall
end EvmObject
