import EvmObject.Machine.DataStack
import EvmObject.Machine.ReturnStack
/-!
The state of a run: where it is, its data stack and its return stack.
-/
namespace EvmObject

structure Limits where
  stackLimit : Nat
  /-- The most frames on the return stack, the sentinel counted. -/
  returnLimit : Nat
  /-- The gas that a metered host starts with. -/
  gasLimit : UInt64
deriving DecidableEq, Repr

namespace Limits

def stackDefault : Nat := 1024

def returnDefault : Nat := 1024

def gasDefault : UInt64 := 0xFFFFFFFFFFFFFFFF

def default : Limits := ⟨stackDefault, returnDefault, gasDefault⟩

def withGasLimit (l : Limits) (gas : UInt64) : Limits := { l with gasLimit := gas }

end Limits

structure Context where
  index : Nat
  pc : Nat
  stack : DataStack
  returns : ReturnStack
deriving DecidableEq

namespace Context

def initial (limits : Limits) : Context where
  index := 0
  pc := 0
  stack := .empty limits.stackLimit
  returns := .initial limits.returnLimit

def floor (ctx : Context) : Nat := ctx.returns.floor

end Context
end EvmObject
