import EvmObject.Validation
/-!
The gate that initcode passes on creation: code without the magic is left to others, a legal
container is deployed, and any other fails in the way of the flow that brought it.
-/
namespace EvmObject

inductive CreationFlow where
  | transaction | create | create2
deriving DecidableEq, Repr

inductive CodeKind where
  | legacy | container
deriving DecidableEq, Repr

inductive Verdict where
  /-- Not a container. -/
  | legacy
  | deploy (c : Container)
  /-- The creation fails, but the transaction stands. -/
  | creationFailed (e : ContainerError)
  /-- The creating code finds a zero instead of an address. -/
  | pushZero (e : ContainerError)
deriving DecidableEq

/-- Only the two bytes of the magic count. -/
def CodeKind.ofBytes : List UInt8 → CodeKind
  | a :: b :: _ => if [a, b] = Layout.magic then container else legacy
  | _ => legacy

def Verdict.container? : Verdict → Option Container
  | deploy c => some c
  | _ => none

namespace CreationFlow

def reject (flow : CreationFlow) (e : ContainerError) : Verdict :=
  match flow with
  | transaction => .creationFailed e
  | create => .pushZero e
  | create2 => .pushZero e

def judge (flow : CreationFlow) (initcode : List UInt8) : Verdict :=
  match CodeKind.ofBytes initcode with
  | .legacy => .legacy
  | .container =>
    match Container.load initcode with
    | .ok c => .deploy c
    | .error e => flow.reject e

end CreationFlow
end EvmObject
