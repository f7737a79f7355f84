import EvmObject.Event
import EvmObject.Machine.Run
/-!
Which events each operation logs, in order.
-/
namespace EvmObject

variable {σ : Type}

namespace Container

def decodeEvent (bytes : List UInt8) : Event :=
  match decode bytes with
  | .ok c => .containerDecoded c.sections.size c.data.length
  | .error e => .containerRejected e bytes.length

def validateEvent (c : Container) : Event :=
  match c.validate with
  | .ok () => .containerValid c.sections.size
  | .error e => .containerInvalid e

def loadEvents (bytes : List UInt8) : List Event :=
  decodeEvent bytes ::
    match decode bytes with
    | .ok c => [c.validateEvent]
    | .error _ => []

end Container

namespace CreationFlow

def events (flow : CreationFlow) (initcode : List UInt8) : List Event :=
  match CodeKind.ofBytes initcode with
  | .legacy => []
  | .container =>
    Container.loadEvents initcode ++
      match Container.load initcode with
      | .ok _ => []
      | .error e => [.initcodeRejected flow e]

end CreationFlow

namespace Machine

def current? (c : Container) (ctx : Context) : Option Instruction :=
  match c.sections[ctx.index]? with
  | none => none
  | some running =>
    match Instruction.decode running.code ctx.pc with
    | .ok instr => some instr
    | .error _ => none

def transferEvents (ctx : Context) : Instruction → Step σ → List Event
  | .callf _, .next after _ => [.call ctx.index after.index after.floor after.returns.depth]
  | .retf, .next after _ => [.comeBack ctx.index after.index after.pc after.returns.depth]
  | .retf, .exit .. => [.entryReturned ctx.index]
  | _, _ => []

def stepEvents (c : Container) (ctx : Context) (result : Step σ) : List Event :=
  (match current? c ctx with
    | some instr =>
      .step ctx.index ctx.pc instr.info.name ctx.stack.height ctx.floor
        :: transferEvents ctx instr result
    | none => [])
  ++ match result with
    | .halt reason after _ => [.halted after.index after.pc after.returns.depth reason]
    | _ => []

/-- What at most `steps` steps log, after the events logged before. -/
def eventsFor (host : Host σ) (c : Container) :
    (steps : Nat) → Context → σ → (before : Array Event) → Array Event
  | 0, _, _, before => before
  | steps + 1, ctx, s, before =>
    let result := step host c ctx s
    let logged := before ++ stepEvents c ctx result
    match result with
    | .next ctx s => eventsFor host c steps ctx s logged
    | _ => logged

def runEvents (host : Host σ) [metered : host.Metered] (c : Container) (limits : Limits) (s : σ) :
    List Event :=
  (eventsFor host c (metered.left s + 1) (.initial limits) s #[]).toList

end Machine
end EvmObject
