import EvmObject.Machine.Step.Lemmas
/-!
Whole runs. `runFor` makes a bounded number of steps and works with every host; `run` needs no
bound, for a host whose charges come out of a finite allowance. Main statement: each step that goes
on costs gas (`left_of_step_next`), so that `left + 1` steps always suffice.
-/
namespace EvmObject

variable {σ : Type}

inductive Outcome where
  /-- By a stop, a return, or past the end of a section; the top word is listed first. -/
  | success (gasUsed : UInt64) (words : List Word)
  | revert (gasUsed : UInt64)
  /-- By a fault at the given place, with as many frames on the return stack. -/
  | exceptionalHalt (reason : Halt) (index pc depth : Nat)
deriving DecidableEq

namespace Outcome

def isSuccess : Outcome → Bool
  | success .. => true
  | _ => false

def reason? : Outcome → Option Halt
  | exceptionalHalt reason .. => some reason
  | _ => none

def gasUsed? : Outcome → Option UInt64
  | success gas _ => some gas
  | revert gas => some gas
  | exceptionalHalt .. => none

def ofExit (host : Host σ) (how : Exit) (ctx : Context) (s : σ) : Outcome :=
  match how with
  | .success => success (host.gasUsed s) ctx.stack.words
  | .revert => revert (host.gasUsed s)

def ofHalt (reason : Halt) (ctx : Context) : Outcome :=
  exceptionalHalt reason ctx.index ctx.pc ctx.returns.depth

end Outcome

namespace Machine

/-- The outcome of a run and the state of its host then, if at most `steps` steps end it. -/
def runFor (host : Host σ) (c : Container) : (steps : Nat) → Context → σ → Option (Outcome × σ)
  | 0, _, _ => none
  | steps + 1, ctx, s =>
    match step host c ctx s with
    | .next ctx s => runFor host c steps ctx s
    | .exit how ctx s => some (.ofExit host how ctx s, s)
    | .halt reason ctx s => some (.ofHalt reason ctx, s)

/-- An instruction that is carried out and lets the run go on changes the host by at most one
request, and is none of those that end the run. -/
theorem perform_next {host : Host σ} {c : Container} {running : CodeSection} {instr : Instruction}
    {info : OpcodeInfo} {next : Nat} {ctx ctx' : Context} {s t : σ}
    (h : perform host c running instr info next ctx s = .next ctx' t) :
    instr.info.terminating = false ∧
      (t = s ∨ ∃ inputs, t = (host.external info.byte inputs s).2) := by
  cases instr with
  | stack op =>
    simp only [perform] at h
    split at h
    · refine ⟨?_, .inl (Step.next.inj h).2.symm⟩
      cases op with
      | binary op => cases op <;> rfl
      | unary op => cases op <;> rfl
      | _ => rfl
    · nomatch h
  | rjump offset =>
    obtain ⟨_, _, _, same⟩ := goTo_next h
    exact ⟨rfl, .inl same⟩
  | rjumpi offset =>
    obtain ⟨_, _, _, _, _, _, same⟩ := select_next h
    exact ⟨rfl, .inl same⟩
  | rjumpv table =>
    obtain ⟨_, _, _, _, _, _, same⟩ := select_next h
    exact ⟨rfl, .inl same⟩
  | callf target =>
    obtain ⟨_, _, _, _, _, same⟩ := call_next h
    exact ⟨rfl, .inl same⟩
  | retf =>
    obtain ⟨_, _, _, _, _, same⟩ := comeBack_next h
    exact ⟨rfl, .inl same⟩
  | stop => nomatch h
  | invalid => nomatch h
  | finish how => nomatch (delegate_next h).1
  | delegated op =>
    obtain ⟨stays, inputs, _, _, _, _, answered, _⟩ := delegate_next h
    refine ⟨?_, .inr ⟨inputs, by rw [answered]⟩⟩
    simp only [Instruction.exit?, ite_eq_right_iff, reduceCtorEq, imp_false,
      Bool.not_eq_true] at stays
    exact stays

theorem left_of_step_next {host : Host σ} [metered : host.Metered] {c : Container}
    {ctx ctx' : Context} {s t : σ} (h : step host c ctx s = .next ctx' t) :
    metered.left t < metered.left s := by
  have steps := course host c ctx s
  generalize step host c ctx s = result at h steps
  cases steps with
  | @performed _ instr paid here checked charged =>
    obtain ⟨goesOn, after⟩ := perform_next h
    have cost : 0 < instr.info.gas.toNat := Opcode.gas_pos goesOn
    have lowered := metered.left_charge _ _ _ charged
    have kept : metered.left t ≤ metered.left paid := by
      rcases after with rfl | ⟨inputs, rfl⟩
      · exact Nat.le_refl _
      · exact metered.left_external _ _ _
    omega
  | _ => nomatch h

/-- One step more than can be charged ends every run. -/
theorem runFor_isSome {host : Host σ} [metered : host.Metered] (c : Container) (steps : Nat)
    (ctx : Context) (s : σ) (enough : metered.left s < steps) :
    (runFor host c steps ctx s).isSome := by
  induction steps generalizing ctx s with
  | zero => omega
  | succ steps ih =>
    unfold runFor
    split
    · rename_i ctx' t goesOn
      have lower := left_of_step_next goesOn
      exact ih ctx' t (by omega)
    · rfl
    · rfl

def resume (host : Host σ) [metered : host.Metered] (c : Container) (ctx : Context) (s : σ) :
    Outcome × σ :=
  (runFor host c (metered.left s + 1) ctx s).get
    (runFor_isSome c _ ctx s (Nat.lt_succ_self _))

def run (host : Host σ) [host.Metered] (c : Container) (limits : Limits) (s : σ) : Outcome × σ :=
  resume host c (.initial limits) s

end Machine
end EvmObject
