import EvmObject.Container
import EvmObject.Machine.Halt
import EvmObject.Word
import Mathlib.Algebra.Group.Int.Defs
/-!
Straight-line code: instructions that move words on the data stack and nothing else, one after the other.
`StackOp.effect?` says without bytes, table and machine what each of them does. It reads words as numbers below
2^256, computes with integers and wraps the result. `evaluate?` and `Tally.after` put such effects one after the
other.
-/
namespace EvmObject

/-- The result for the top number and the one below it, before it is wrapped. -/
def BinaryOp.meaning (op : BinaryOp) (a b : Nat) : Int :=
  match op with
  | add => a + b
  | sub => a - b
  | lt => if a < b then 1 else 0
  | gt => if b < a then 1 else 0
  | eq => if a = b then 1 else 0
  | and => a &&& b
  | or => a ||| b
  | xor => a ^^^ b

def UnaryOp.meaning (op : UnaryOp) (a : Nat) : Int :=
  match op with
  | isZero => if a = 0 then 1 else 0
  | not => 2 ^ 256 - 1 - a

namespace StackOp

def arity : StackOp → Nat
  | binary _ => 2
  | unary _ | pop => 1
  | nop | push _ => 0
  | dup depth => depth + 1
  | swap depth => depth + 2

def cost : StackOp → Nat
  | pop => 2
  | nop => 1
  | push data => if data.bytes = [] then 2 else 3
  | _ => 3

/-- What an instruction makes of words, the top one first; `none` if it needs more of them. -/
def effect? : StackOp → List Word → Option (List Word)
  | binary op, a :: b :: rest => some (.ofInt 256 (op.meaning a.toNat b.toNat) :: rest)
  | unary op, a :: rest => some (.ofInt 256 (op.meaning a.toNat) :: rest)
  | pop, _ :: rest => some rest
  | nop, words => some words
  | push data, words => some (.ofNat 256 (BigEndian.value data.bytes) :: words)
  | dup depth, words => words[depth.val]?.map fun w => w :: words
  | swap depth, top :: rest => rest[depth.val]?.map fun low => low :: rest.set depth top
  | _, _ => none

def encode (op : StackOp) : List UInt8 := (Instruction.stack op).encode

/-- What instructions make of words one after the other; `none` if one needs more words than there are or leaves
more than `most`. -/
def evaluate? (most : Nat) : List StackOp → List Word → Option (List Word)
  | [], words => some words
  | op :: ops, words =>
    match op.effect? words with
    | some after => if after.length ≤ most then evaluate? most ops after else none
    | none => none

def totalCost : List StackOp → Nat
  | [] => 0
  | op :: ops => op.cost + totalCost ops

end StackOp

/-- What instructions came to so far: the words, the top one first, the gas and the count of bytes. -/
structure Tally where
  words : List Word
  gas : Nat
  offset : Nat

namespace Tally

def start : Tally := ⟨[], 0, 0⟩

/-- One instruction more. A fault is told with the count of bytes before it. -/
def after (t : Tally) (op : StackOp) : Except (Nat × Halt) Tally :=
  match op.effect? t.words with
  | none => .error (t.offset, .stackUnderflow op.arity t.words.length)
  | some words =>
    if words.length ≤ 1024 then .ok ⟨words, t.gas + op.cost, t.offset + op.encode.length⟩
    else .error (t.offset, .stackOverflow 1024)

end Tally

/-- The instructions as the only section, one that takes nothing and leaves nothing. -/
def Container.straight (ops : List StackOp) (maxStackHeight : UInt16) (data : List UInt8) : Container :=
  assemble #[⟨⟨0, 0, maxStackHeight⟩, (ops.flatMap StackOp.encode).toArray⟩] data

end EvmObject
