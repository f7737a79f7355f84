import EvmObject.Host.Record
import EvmObject.Proofs.Advance
/-!
The requests that a run makes of its host, in order: `requests` reads them off the record of a host that
keeps one. Main statements: keeping it changes nothing else (`advance_recorded`), and each step adds its own
requests (`requests_succ`).
-/
namespace EvmObject

variable {σ τ : Type}

namespace Host

/-- Through `view` the states of `fine` are those of `coarse`, and both hosts answer alike. -/
structure Refines (fine : Host τ) (coarse : Host σ) (view : τ → σ) : Prop where
  charge : ∀ amount s, coarse.charge amount (view s) =
    ((fine.charge amount s).1, view (fine.charge amount s).2)
  external : ∀ byte inputs s, coarse.external byte inputs (view s) =
    ((fine.external byte inputs s).1, view (fine.external byte inputs s).2)

theorem recorded_refines (host : Host σ) : host.recorded.Refines host Prod.fst where
  charge _ _ := rfl
  external _ _ _ := rfl

end Host

namespace Step

def view (f : τ → σ) : Step τ → Step σ
  | next ctx s => next ctx (f s)
  | exit how ctx s => exit how ctx (f s)
  | halt reason ctx s => halt reason ctx (f s)

@[simp] theorem ctx_view (f : τ → σ) (r : Step τ) : (r.view f).ctx = r.ctx := by
  cases r <;> rfl

end Step

namespace Machine

variable {fine : Host τ} {coarse : Host σ} {f : τ → σ} {c : Container} {running : CodeSection}

theorem goTo_view (f : τ → σ) (code : Array UInt8) (next : Nat) (jump : Option Int16)
    (ctx : Context) (s : τ) :
    goTo code next jump ctx (f s) = (goTo code next jump ctx s).view f := by
  unfold goTo
  cases land code next jump <;> rfl

theorem select_view (f : τ → σ) (code : Array UInt8) (next : Nat) (choose : Word → Option Int16)
    (ctx : Context) (s : τ) :
    select code next choose ctx (f s) = (select code next choose ctx s).view f := by
  unfold select
  cases ctx.stack.pop ctx.floor with
  | error e => rfl
  | ok r => exact goTo_view f code next (choose r.1) { ctx with stack := r.2 } s

theorem leave_view (f : τ → σ) (instr : Instruction) (next : Nat) (ctx : Context) (s : τ) :
    leave instr next ctx (f s) = (leave instr next ctx s).view f := by
  unfold leave
  cases instr.exit? <;> rfl

theorem delegate_view (h : fine.Refines coarse f) (instr : Instruction) (info : OpcodeInfo)
    (next : Nat) (ctx : Context) (s : τ) :
    delegate coarse instr info next ctx (f s) = (delegate fine instr info next ctx s).view f := by
  unfold delegate
  cases ctx.stack.popMany ctx.floor info.inputs with
  | error e => rfl
  | ok r =>
    obtain ⟨inputs, left⟩ := r
    simp only [h.external]
    obtain ⟨answer, t⟩ := fine.external info.byte inputs s
    cases answer with
    | error e => rfl
    | ok results =>
      dsimp only
      by_cases count : results.length = info.outputs
      · rw [if_pos count, if_pos count]
        cases left.pushAll results with
        | error e => rfl
        | ok stack => exact leave_view f instr next { ctx with stack } t
      · rw [if_neg count, if_neg count]
        rfl

theorem call_view (f : τ → σ) (target next : Nat) (ctx : Context) (s : τ) :
    call c target next ctx (f s) = (call c target next ctx s).view f := by
  unfold call
  cases c.sections[target]? with
  | none => rfl
  | some callee =>
    dsimp only
    cases ctx.returns.push _ <;> rfl

theorem comeBack_view (f : τ → σ) (type : CodeType) (ctx : Context) (s : τ) :
    comeBack type ctx (f s) = (comeBack type ctx s).view f := by
  unfold comeBack
  cases ctx.returns.pop? with
  | none => rfl
  | some r =>
    dsimp only
    cases r.2.isEmpty <;> rfl

theorem perform_view (h : fine.Refines coarse f) (instr : Instruction) (info : OpcodeInfo)
    (next : Nat) (ctx : Context) (s : τ) :
    perform coarse c running instr info next ctx (f s)
      = (perform fine c running instr info next ctx s).view f := by
  cases instr with
  | stack op =>
    simp only [perform]
    cases op.apply ctx.floor ctx.stack <;> rfl
  | rjump offset => exact goTo_view f running.code next (some offset) ctx s
  | rjumpi offset => exact select_view f running.code next _ ctx s
  | rjumpv table => exact select_view f running.code next _ ctx s
  | callf target => exact call_view f target.toNat next ctx s
  | retf => exact comeBack_view f running.type ctx s
  | stop => rfl
  | invalid => rfl
  | finish how => exact delegate_view h (.finish how) info next ctx s
  | delegated op => exact delegate_view h (.delegated op) info next ctx s

theorem execute_view (h : fine.Refines coarse f) (instr : Instruction) (ctx : Context) (s : τ) :
    execute coarse c running instr ctx (f s) = (execute fine c running instr ctx s).view f := by
  simp only [execute]
  cases ready c running.type instr instr.info ctx with
  | error e => rfl
  | ok checked =>
    simp only [h.charge]
    obtain ⟨answer, paid⟩ := fine.charge instr.info.gas s
    cases answer with
    | error e => rfl
    | ok charged => exact perform_view h instr instr.info _ ctx paid

theorem step_view (h : fine.Refines coarse f) (ctx : Context) (s : τ) :
    step coarse c ctx (f s) = (step fine c ctx s).view f := by
  unfold step
  cases c.sections[ctx.index]? with
  | none => rfl
  | some running =>
    dsimp only
    by_cases inside : ctx.pc < running.code.size
    · rw [if_pos inside, if_pos inside]
      cases Instruction.decode running.code ctx.pc with
      | error e => rfl
      | ok instr => exact execute_view h instr ctx s
    · rw [if_neg inside, if_neg inside]
      rfl

theorem advance_view (h : fine.Refines coarse f) (n : Nat) (ctx : Context) (s : τ) :
    advance coarse c n ctx (f s) = (advance fine c n ctx s).view f := by
  induction n with
  | zero => rfl
  | succ n ih =>
    rw [advance, advance, ih]
    cases advance fine c n ctx s with
    | next ctx s => exact step_view h ctx s
    | _ => rfl

/-- What the first `n` steps ask of the host, in order. -/
def requests (host : Host σ) (c : Container) (n : Nat) (ctx : Context) (s : σ) : List Request :=
  (advance host.recorded c n ctx (s, [])).state.2.reverse

theorem advance_recorded (host : Host σ) (c : Container) (n : Nat) (ctx : Context) (s : σ)
    (log : List Request) :
    advance host c n ctx s = (advance host.recorded c n ctx (s, log)).view Prod.fst :=
  advance_view host.recorded_refines n ctx (s, log)

variable {host : Host σ} {ctx ctx' : Context} {s t : σ}

theorem requests_one (s : σ) :
    requests host c 1 ctx s = (step host.recorded c ctx (s, [])).state.2.reverse := rfl

theorem step_recorded_append (log : List Request) :
    (step host.recorded c ctx (s, log)).state.2 = (step host.recorded c ctx (s, [])).state.2 ++ log := by
  -- A host that keeps a record answers alike with more on record before.
  have append : host.recorded.Refines host.recorded (Prod.map id (· ++ log)) :=
    ⟨fun _ _ => rfl, fun _ _ _ => rfl⟩
  have same := step_view (c := c) append ctx (s, [])
  change step host.recorded c ctx (s, log) = _ at same
  rw [same]
  cases step host.recorded c ctx (s, []) <;> rfl

theorem requests_succ {n : Nat} (reached : advance host c n ctx s = .next ctx' t) :
    requests host c (n + 1) ctx s = requests host c n ctx s ++ requests host c 1 ctx' t := by
  have noted := advance_recorded host c n ctx s []
  rw [reached] at noted
  rw [requests_one, requests, requests, advance]
  cases same : advance host.recorded c n ctx (s, []) with
  | next after u =>
    rw [same] at noted
    cases noted
    change (step host.recorded c ctx' (u.1, u.2)).state.2.reverse = _
    rw [step_recorded_append, List.reverse_append]
    rfl
  | exit how after u =>
    rw [same] at noted
    cases noted
  | halt reason after u =>
    rw [same] at noted
    cases noted

theorem requests_over {n : Nat} (ended : ∀ after t, advance host c n ctx s ≠ .next after t) :
    requests host c (n + 1) ctx s = requests host c n ctx s := by
  have noted := advance_recorded host c n ctx s []
  rw [requests, requests, advance]
  cases same : advance host.recorded c n ctx (s, []) with
  | next after u =>
    rw [same] at noted
    exact absurd noted (ended after u.1)
  | exit how after u => rfl
  | halt reason after u => rfl

theorem StaysAbove.recorded {depth n : Nat}
    (h : StaysAbove host c depth n ctx s) : StaysAbove host.recorded c depth n ctx (s, []) := by
  intro m less
  have above := h m less
  rwa [advance_recorded host c m ctx s [], Step.ctx_view] at above

end Machine
end EvmObject
