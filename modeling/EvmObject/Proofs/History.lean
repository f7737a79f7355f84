import EvmObject.Journal
import EvmObject.Proofs.Transition
import Mathlib.Algebra.Ring.Nat
/-!
The instructions that a run has carried out, in order. A step that fails carries none out, nor does one
past the end of its section. Main statement: `history_induction`, by which what every step keeps of a run
and its history holds of both all along.
-/
namespace EvmObject

variable {σ : Type} {host : Host σ} {c : Container} {running : CodeSection} {instr : Instruction}
  {ctx ctx' : Context} {s t : σ} {how : Exit}

def Instruction.isCall : Instruction → Bool
  | callf _ => true
  | _ => false

namespace Machine

theorem current?_eq_some : current? c ctx = some instr ↔ ∃ running, ctx.At c running instr := by
  unfold current?
  constructor
  · intro h
    split at h
    · cases h
    · split at h
      · cases h
        exact ⟨_, ‹_›, ‹_›⟩
      · cases h
  · rintro ⟨running, here⟩
    simp [here.found, here.decoded]

theorem current?_past (found : c.sections[ctx.index]? = some running)
    (outside : running.code.size ≤ ctx.pc) : current? c ctx = none := by
  simp [current?, found, Instruction.decode, outside]

/-- The instruction that a step carries out: the one at the present place, unless the step fails. -/
def done? (host : Host σ) (c : Container) (ctx : Context) (s : σ) : Option Instruction :=
  match step host c ctx s with
  | .halt .. => none
  | _ => current? c ctx

theorem done?_of_fine (here : ctx.At c running instr)
    (fine : ∀ reason ctx' t, step host c ctx s ≠ .halt reason ctx' t) :
    done? host c ctx s = some instr := by
  unfold done?
  split
  · exact absurd ‹_› (fine _ _ _)
  · exact current?_eq_some.2 ⟨running, here⟩

theorem done?_next (here : ctx.At c running instr) (h : step host c ctx s = .next ctx' t) :
    done? host c ctx s = some instr :=
  done?_of_fine here (by simp [h])

theorem done?_exit (here : ctx.At c running instr) (h : step host c ctx s = .exit how ctx' t) :
    done? host c ctx s = some instr :=
  done?_of_fine here (by simp [h])

theorem done?_past (found : c.sections[ctx.index]? = some running)
    (outside : running.code.size ≤ ctx.pc) : done? host c ctx s = none := by
  rw [done?, current?_past found outside]
  split <;> rfl

/-- The instructions that the first `n` steps carry out, in order. -/
def history (host : Host σ) (c : Container) : (n : Nat) → Context → σ → List Instruction
  | 0, _, _ => []
  | n + 1, ctx, s =>
    history host c n ctx s ++
      match advance host c n ctx s with
      | .next before t => (done? host c before t).toList
      | _ => []

theorem history_induction {P : Step σ → List Instruction → Prop} (start : P (.next ctx s) [])
    (kept : ∀ ctx s done, P (.next ctx s) done →
      P (step host c ctx s) (done ++ (done? host c ctx s).toList)) (n : Nat) :
    P (advance host c n ctx s) (history host c n ctx s) := by
  induction n with
  | zero => exact start
  | succ n ih =>
    rw [advance, history]
    cases reached : advance host c n ctx s with
    | next before t =>
      rw [reached] at ih
      exact kept before t _ ih
    | exit how after t => simpa [Step.andThen, reached] using ih
    | halt reason after t => simpa [Step.andThen, reached] using ih

end Machine
end EvmObject
