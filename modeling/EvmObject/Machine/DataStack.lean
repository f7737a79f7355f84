import EvmObject.Machine.Halt
import EvmObject.Word
/-!
The data stack that all functions of a run share. Operations take the floor of the running function:
the words below it belong to callers and are out of reach. An operation that fails leaves the stack as
it was; an instruction made of several of them leaves what those before the failing one made of it.
Main statements: what the operations do to `words`.
-/
namespace EvmObject

/-- Words, the top one first, with their count at hand and the most there may be. -/
structure DataStack where
  limit : Nat
  words : List Word
  height : Nat
  height_eq : height = words.length
deriving DecidableEq

namespace DataStack

def empty (limit : Nat) : DataStack := ⟨limit, [], 0, rfl⟩

@[ext] theorem ext {s t : DataStack} (limits : s.limit = t.limit) (words : s.words = t.words) :
    s = t := by
  obtain ⟨l, ws, h, rfl⟩ := s
  obtain ⟨m, vs, k, rfl⟩ := t
  subst limits words
  rfl

def visible (s : DataStack) (floor : Nat) : Nat := s.height - floor

def require (s : DataStack) (floor n : Nat) : Except Halt Unit :=
  if n ≤ s.visible floor then .ok () else .error (.stackUnderflow n (s.visible floor))

def push (s : DataStack) (w : Word) : Except Halt DataStack :=
  if s.height < s.limit then
    .ok ⟨s.limit, w :: s.words, s.height + 1, by rw [s.height_eq, List.length_cons]⟩
  else .error (.stackOverflow s.limit)

/-- The outcome of an operation on this stack, with the stack that it leaves when it fails. -/
def keep {α : Type} (s : DataStack) : Except Halt α → Except (Halt × DataStack) α
  | .ok a => .ok a
  | .error h => .error (h, s)

/-- Pushes words one after the other, so that the last ends on top. Those before one that finds no room
stay. -/
def pushAll (s : DataStack) : List Word → Except (Halt × DataStack) DataStack
  | [] => .ok s
  | w :: ws =>
    match s.push w with
    | .ok t => t.pushAll ws
    | .error h => .error (h, s)

def drop (s : DataStack) (n : Nat) : DataStack :=
  ⟨s.limit, s.words.drop n, s.height - n, by rw [s.height_eq, List.length_drop]⟩

def pop (s : DataStack) (floor : Nat) : Except Halt (Word × DataStack) :=
  match s.words with
  | w :: _ =>
    if 1 ≤ s.visible floor then .ok (w, s.drop 1)
    else .error (.stackUnderflow 1 (s.visible floor))
  | [] => .error (.stackUnderflow 1 0)

/-- Takes the `n` topmost words off; they are listed deepest first. -/
def popMany (s : DataStack) (floor n : Nat) : Except Halt (List Word × DataStack) :=
  match s.require floor n with
  | .ok () => .ok ((s.words.take n).reverse, s.drop n)
  | .error h => .error h

/-- Copies the word `depth` places from the top, the top itself being at one. -/
def dup (s : DataStack) (floor depth : Nat) : Except Halt DataStack :=
  match s.require floor depth with
  | .error h => .error h
  | .ok () =>
    match s.words[depth - 1]? with
    | some w => s.push w
    | none => .error (.stackUnderflow depth s.height)

def exchange (depth : Nat) (words : List Word) : List Word :=
  match words[0]?, words[depth]? with
  | some top, some low => (words.set 0 low).set depth top
  | _, _ => words

@[simp] theorem length_exchange (depth : Nat) (words : List Word) :
    (exchange depth words).length = words.length := by
  unfold exchange
  split <;> simp

/-- Exchanges the top word with the one `depth` places below it. -/
def swap (s : DataStack) (floor depth : Nat) : Except Halt DataStack :=
  match s.require floor (depth + 1) with
  | .error h => .error h
  | .ok () =>
    .ok ⟨s.limit, exchange depth s.words, s.height, by rw [s.height_eq, length_exchange]⟩

theorem words_push {s t : DataStack} {w : Word} (h : s.push w = .ok t) :
    t.words = w :: s.words := by
  unfold push at h
  split at h
  · cases h
    rfl
  · nomatch h

theorem words_pop {s t : DataStack} {floor : Nat} {w : Word} (h : s.pop floor = .ok (w, t)) :
    s.words = w :: t.words := by
  unfold pop at h
  split at h
  · rename_i top rest shape
    split at h
    · cases h
      simp [drop, shape]
    · nomatch h
  · nomatch h

theorem words_dup {s t : DataStack} {floor depth : Nat} (h : s.dup floor depth = .ok t) :
    ∃ w, s.words[depth - 1]? = some w ∧ t.words = w :: s.words := by
  unfold dup at h
  split at h
  · nomatch h
  · split at h
    · rename_i w found
      exact ⟨w, found, words_push h⟩
    · nomatch h

/-- Whether an instruction of this arity finds its inputs and leaves a stack within the limit. -/
def accommodates (s : DataStack) (floor inputs outputs : Nat) : Except Halt Unit :=
  match s.require floor inputs with
  | .error h => .error h
  | .ok () =>
    if s.height - inputs + outputs ≤ s.limit then .ok () else .error (.stackOverflow s.limit)

end DataStack

namespace BinaryOp

/-- The result for the top word and the one below it. -/
def eval : BinaryOp → Word → Word → Word
  | add, a, b => a + b
  | sub, a, b => a - b
  | lt, a, b => .ofBool (a.ult b)
  | gt, a, b => .ofBool (b.ult a)
  | eq, a, b => .ofBool (a == b)
  | and, a, b => a &&& b
  | or, a, b => a ||| b
  | xor, a, b => a ^^^ b

end BinaryOp

namespace UnaryOp

def eval : UnaryOp → Word → Word
  | isZero, a => .ofBool (a == 0)
  | not, a => ~~~a

end UnaryOp

namespace StackOp

def apply (floor : Nat) (s : DataStack) : StackOp → Except (Halt × DataStack) DataStack
  | binary op => do
    let (a, s) ← s.keep (s.pop floor)
    let (b, s) ← s.keep (s.pop floor)
    s.keep (s.push (op.eval a b))
  | unary op => do
    let (a, s) ← s.keep (s.pop floor)
    s.keep (s.push (op.eval a))
  | pop => do
    let (_, s) ← s.keep (s.pop floor)
    return s
  | nop => return s
  | push data => s.keep (s.push (.ofBytes data.bytes))
  | dup depth => s.keep (s.dup floor (depth + 1))
  | swap depth => s.keep (s.swap floor (depth + 1))

end StackOp
end EvmObject
