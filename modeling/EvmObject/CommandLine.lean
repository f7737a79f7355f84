import EvmObject.CommandLine.Arguments
import EvmObject.Disassembly
import EvmObject.Hex
import EvmObject.Host.GasMeter
import EvmObject.Journal
/-!
The commands: a container is taken from hexadecimal text and validated, listed or run. Files are
looked up through a function, so that all of it is a function of its inputs.
-/
namespace EvmObject.CommandLine

inductive InputError where
  | noInput
  /-- The file cannot be read, for a reason that is not this program's. -/
  | unreadable (message : String)
  | notText
  | hex (e : HexError)
deriving DecidableEq

def InputError.message : InputError → String
  | noInput => "no input: pass --hex or --file"
  | unreadable message => message
  | notText => "stream did not contain valid UTF-8"
  | hex e => e.message

/-- The content of the file at a path, or why there is none. -/
abbrev Files := String → Except String (List UInt8)

/-- What a command printed, what was logged before, and why it failed if it did. -/
structure Response where
  events : List Event
  output : List Char
  failure : Option String

namespace Settings

def text (s : Settings) (files : Files) : Except InputError (List Char) :=
  match s.hex, s.file with
  | some hex, _ => .ok hex.toList
  | none, some path =>
    match files path with
    | .error message => .error (.unreadable message)
    | .ok bytes =>
      match String.fromUTF8? ⟨bytes.toArray⟩ with
      | some text => .ok text.toList
      | none => .error .notText
  | none, none => .error .noInput

def bytes (s : Settings) (files : Files) : Except InputError (List UInt8) :=
  match s.text files with
  | .error e => .error e
  | .ok text =>
    match Hex.decode text with
    | .ok bytes => .ok bytes
    | .error e => .error (.hex e)

def limits (s : Settings) : Limits :=
  match s.gasLimit with
  | some gas => Limits.default.withGasLimit gas
  | none => Limits.default

end Settings

namespace Response

def printed (events : List Event) (output : List Char) : Response := ⟨events, output, none⟩

def failed (events : List Event) (message : String) : Response := ⟨events, [], some message⟩

end Response

/-- The words of a final stack, a line each, with their places counted from the top. -/
def stackLines (words : List Word) : List Char :=
  words.zipIdx.flatMap fun w =>
    "  [".toList ++ Numeral.decimal w.2 ++ "] ".toList ++ w.1.text ++ ['\n']

def report (events : List Event) : Outcome → Response
  | .success gas words =>
    .printed events <|
      "success, gas used ".toList ++ Numeral.decimal gas.toNat ++ '\n' :: stackLines words
  | .revert gas =>
    .printed events <| "reverted, gas used ".toList ++ Numeral.decimal gas.toNat ++ ['\n']
  | .exceptionalHalt reason index pc depth =>
    let place := String.ofList (Numeral.decimal index ++ ':' :: Numeral.hex 4 pc)
    .failed events s!"exceptional halt at {place} (return depth {depth}): {reason.message}"

def validate (bytes : List UInt8) : Response :=
  let events := Container.loadEvents bytes
  match Container.load bytes with
  | .error e => .failed events e.message
  | .ok c =>
    .printed events <|
      "valid: ".toList ++ Numeral.decimal c.sections.size ++ " code section(s), ".toList
      ++ Numeral.decimal c.data.length ++ " data byte(s)\n".toList

def disasm (anyCode : Bool) (bytes : List UInt8) : Response :=
  if anyCode then
    match Container.decode bytes with
    | .error e => .failed [Container.decodeEvent bytes] e.message
    | .ok c => .printed [Container.decodeEvent bytes] c.disassemble
  else
    match Container.load bytes with
    | .error e => .failed (Container.loadEvents bytes) e.message
    | .ok c => .printed (Container.loadEvents bytes) c.disassemble

def run (limits : Limits) (bytes : List UInt8) : Response :=
  match Container.load bytes with
  | .error e => .failed (Container.loadEvents bytes) e.message
  | .ok c =>
    let meter := GasMeter.full limits.gasLimit
    report (Container.loadEvents bytes ++ Machine.runEvents .basic c limits meter)
      (Machine.run .basic c limits meter).1

def respond (files : Files) (i : Invocation) : Response :=
  match i.settings.bytes files with
  | .error e => .failed [] e.message
  | .ok bytes =>
    match i.verb with
    | .validate => validate bytes
    | .disasm => disasm i.settings.noValidate bytes
    | .run => run i.settings.limits bytes

def stdout (i : Invocation) (r : Response) : List Char :=
  (if i.settings.debug then r.events.flatMap fun e => e.line.toList ++ ['\n'] else []) ++ r.output

end EvmObject.CommandLine
