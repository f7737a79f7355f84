import EvmObject.Creation
import EvmObject.Machine.Halt
/-!
The events that are logged while containers are read, judged and run, and their lines in a log.
-/
namespace EvmObject

inductive Event where
  | containerRejected (e : LayoutError) (length : Nat)
  | containerDecoded (sections data : Nat)
  | containerValid (sections : Nat)
  | containerInvalid (e : SectionError)
  | initcodeRejected (flow : CreationFlow) (e : ContainerError)
  /-- An instruction was read and is about to be checked. -/
  | step (index pc : Nat) (name : String) (height floor : Nat)
  | call (caller callee floor depth : Nat)
  | comeBack (callee caller pc depth : Nat)
  /-- The entry function returned, which ends the run. -/
  | entryReturned (index : Nat)
  | halted (index pc depth : Nat) (reason : Halt)
deriving DecidableEq

inductive Event.Level where
  | debug | trace
deriving DecidableEq

inductive Event.Value where
  | number (n : Nat)
  | plain (text : String)
  | quoted (text : String)
deriving DecidableEq

namespace CreationFlow

def name : CreationFlow → String
  | transaction => "Transaction"
  | create => "Create"
  | create2 => "Create2"

end CreationFlow

namespace Event

def Level.name : Level → String
  | debug => "DEBUG"
  | trace => "TRACE"

def Value.text : Value → String
  | number n => toString n
  | plain text => text
  | quoted text => "\"" ++ text ++ "\""

def level : Event → Level
  | containerRejected .. | containerDecoded .. | containerValid .. | containerInvalid ..
  | initcodeRejected .. | halted .. => .debug
  | step .. | call .. | comeBack .. | entryReturned .. => .trace

def message : Event → String
  | containerRejected .. => "container rejected"
  | containerDecoded .. => "container decoded"
  | containerValid .. => "container valid"
  | containerInvalid .. => "container invalid"
  | initcodeRejected .. => "initcode rejected"
  | step .. => "step"
  | call .. => "CALLF"
  | comeBack .. => "RETF"
  | entryReturned .. => "RETF from entry frame"
  | halted .. => "exceptional halt"

/-- The fields with their names, in the order of a log line. -/
def fields : Event → List (String × Value)
  | containerRejected e length => [("error", .plain e.message), ("len", .number length)]
  | containerDecoded sections data => [("sections", .number sections), ("data", .number data)]
  | containerValid sections => [("sections", .number sections)]
  | containerInvalid e =>
    [("section", .number e.index), ("offset", .number e.offset), ("error", .plain e.defect.message)]
  | initcodeRejected flow e => [("kind", .plain flow.name), ("error", .plain e.message)]
  | step index pc name height floor =>
    [("section", .number index), ("pc", .number pc), ("op", .quoted name),
      ("height", .number height), ("floor", .number floor)]
  | call caller callee floor depth =>
    [("from", .number caller), ("to", .number callee), ("floor", .number floor),
      ("depth", .number depth)]
  | comeBack callee caller pc depth =>
    [("from", .number callee), ("to", .number caller), ("pc", .number pc),
      ("depth", .number depth)]
  | entryReturned index => [("section", .number index)]
  | halted index pc depth reason =>
    [("section", .number index), ("pc", .number pc), ("depth", .number depth),
      ("reason", .plain reason.message)]

def line (e : Event) : String :=
  e.fields.foldl (fun text field => text ++ " " ++ field.1 ++ "=" ++ field.2.text)
    (e.level.name ++ " " ++ e.message)

end Event
end EvmObject
