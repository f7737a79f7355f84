/-!
Lists that can be taken apart again: a stretch of what has a property ends where the first that has it not
stands. Main statements: `stretch_inj`, and `flatMap_inj` for pieces one after the other.
-/
namespace EvmObject

variable {α β : Type}

section

variable {p : α → Bool} {u v r s : List α}

/-- A list that does not start with what has `p`. -/
def Stops (p : α → Bool) (r : List α) : Prop :=
  ∀ a ∈ r.head?, p a = false

theorem stops_nil : Stops p [] := nofun

theorem stops_cons {a : α} (h : p a = false) : Stops p (a :: r) := by
  rintro b same
  cases same
  exact h

theorem takeWhile_append_of_stops (all : ∀ a ∈ u, p a) (stops : Stops p r) : (u ++ r).takeWhile p = u := by
  rw [List.takeWhile_append_of_pos all]
  cases r with
  | nil => rw [List.takeWhile_nil, List.append_nil]
  | cons a r =>
    have other : ¬p a := by simp [stops a rfl]
    rw [List.takeWhile_cons_of_neg other, List.append_nil]

theorem stretch_inj (hu : ∀ a ∈ u, p a) (hv : ∀ a ∈ v, p a) (hr : Stops p r) (hs : Stops p s)
    (h : u ++ r = v ++ s) : u = v ∧ r = s := by
  have front := congrArg (List.takeWhile p) h
  rw [takeWhile_append_of_stops hu hr, takeWhile_append_of_stops hv hs] at front
  subst front
  exact ⟨rfl, List.append_cancel_left h⟩

end

theorem stretch_inj_of_not_mem {d : Char} {u v r s : List Char} (hu : d ∉ u) (hv : d ∉ v)
    (hr : Stops (· != d) r) (hs : Stops (· != d) s) (h : u ++ r = v ++ s) : u = v ∧ r = s := by
  have others {w : List Char} (hw : d ∉ w) : ∀ c ∈ w, c != d := by
    intro c among
    exact bne_iff_ne.2 fun same => hw (same ▸ among)
  exact stretch_inj (others hu) (others hv) hr hs h

/-- Pieces that end by themselves can be told from each other in a row. -/
theorem flatMap_inj {f : α → List β} {l m : List α} (ends : ∀ {a b r s}, f a ++ r = f b ++ s → a = b ∧ r = s)
    (nonempty : ∀ a, f a ≠ []) (h : l.flatMap f = m.flatMap f) : l = m := by
  induction l generalizing m with
  | nil =>
    cases m with
    | nil => rfl
    | cons b m => exact absurd (List.append_eq_nil_iff.1 h.symm).1 (nonempty b)
  | cons a l ih =>
    cases m with
    | nil => exact absurd (List.append_eq_nil_iff.1 h).1 (nonempty a)
    | cons b m =>
      obtain ⟨rfl, rest⟩ := ends h
      rw [ih rest]

end EvmObject
