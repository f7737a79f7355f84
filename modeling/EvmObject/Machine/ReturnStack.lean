import EvmObject.Machine.Halt
/-!
The return stack: for each active function where its caller goes on, and the height of the data
stack below which it may not reach. The bottom frame stands for the caller of the whole run. Main
statements: when each operation succeeds and what it does to `frames`.
-/
namespace EvmObject

/-- Where a caller goes on, and the floor of the function that it called. -/
structure Frame where
  index : Nat
  /-- The offset there, just past the call. -/
  offset : Nat
  /-- The data stack height that the called function may not go below. -/
  floor : Nat
deriving DecidableEq, Repr

def Frame.sentinel : Frame := ⟨0, 0, 0⟩

/-- Frames, the top one first, with their count at hand and the most there may be. -/
structure ReturnStack where
  limit : Nat
  frames : List Frame
  depth : Nat
  depth_eq : depth = frames.length
deriving DecidableEq

namespace ReturnStack

/-- Only the sentinel, whatever the limit. -/
def initial (limit : Nat) : ReturnStack := ⟨limit, [.sentinel], 1, rfl⟩

@[ext] theorem ext {s t : ReturnStack} (limits : s.limit = t.limit) (frames : s.frames = t.frames) :
    s = t := by
  obtain ⟨l, fs, d, rfl⟩ := s
  obtain ⟨m, gs, e, rfl⟩ := t
  subst limits frames
  rfl

def top? (s : ReturnStack) : Option Frame := s.frames.head?

/-- The frame with `k` others below it. -/
def frame? (s : ReturnStack) (k : Nat) : Option Frame := s.frames.reverse[k]?

def floor (s : ReturnStack) : Nat :=
  match s.frames with
  | f :: _ => f.floor
  | [] => 0

def isFull (s : ReturnStack) : Bool := s.limit ≤ s.depth

def isEmpty (s : ReturnStack) : Bool := s.frames.isEmpty

def push (s : ReturnStack) (f : Frame) : Except Halt ReturnStack :=
  if s.isFull then .error (.returnStackOverflow s.limit)
  else .ok ⟨s.limit, f :: s.frames, s.depth + 1, by rw [s.depth_eq, List.length_cons]⟩

def pop? (s : ReturnStack) : Option (Frame × ReturnStack) :=
  match h : s.frames with
  | f :: rest => some (f, ⟨s.limit, rest, s.depth - 1, by rw [s.depth_eq, h]; rfl⟩)
  | [] => none

theorem floor_of_frames {s : ReturnStack} {f : Frame} {rest : List Frame}
    (shape : s.frames = f :: rest) : s.floor = f.floor := by
  rw [floor, shape]

theorem depth_of_frames {s t : ReturnStack} {f : Frame} (shape : s.frames = f :: t.frames) :
    s.depth = t.depth + 1 := by
  rw [s.depth_eq, shape, List.length_cons, t.depth_eq]

theorem isFull_eq_false {s : ReturnStack} : s.isFull = false ↔ s.depth < s.limit := by
  simp [isFull]

theorem push_eq_ok {s t : ReturnStack} {f : Frame} :
    s.push f = .ok t ↔ s.depth < s.limit ∧ t.limit = s.limit ∧ t.frames = f :: s.frames := by
  unfold push isFull
  split
  · rename_i full
    have full := of_decide_eq_true full
    constructor
    · nofun
    · rintro ⟨room, _⟩
      omega
  · rename_i room
    constructor
    · intro h
      cases h
      exact ⟨by simpa using room, rfl, rfl⟩
    · rintro ⟨_, limits, shape⟩
      exact congrArg Except.ok (ext limits.symm shape.symm)

theorem push_of_room {s : ReturnStack} (room : s.depth < s.limit) (f : Frame) :
    ∃ t, s.push f = .ok t := by
  unfold push
  rw [isFull_eq_false.2 room]
  exact ⟨_, rfl⟩

theorem pop?_eq_some {s t : ReturnStack} {f : Frame} :
    s.pop? = some (f, t) ↔ t.limit = s.limit ∧ s.frames = f :: t.frames := by
  unfold pop?
  split
  · rename_i g rest shape
    constructor
    · intro h
      cases h
      exact ⟨rfl, shape⟩
    · rintro ⟨limits, same⟩
      rw [shape] at same
      injection same with top below
      exact congrArg some (Prod.ext top (ext limits.symm below))
  · simp_all

theorem pop?_eq_none {s : ReturnStack} : s.pop? = none ↔ s.depth = 0 := by
  rw [s.depth_eq]
  unfold pop?
  split <;> simp_all

theorem pop?_of_frames {s : ReturnStack} {f : Frame} {rest : List Frame}
    (shape : s.frames = f :: rest) :
    ∃ t, s.pop? = some (f, t) ∧ t.limit = s.limit ∧ t.frames = rest := by
  have popped : s.pop? = some (f, ⟨s.limit, rest, rest.length, rfl⟩) := pop?_eq_some.2 ⟨rfl, shape⟩
  exact ⟨_, popped, rfl, rfl⟩

end ReturnStack
end EvmObject
