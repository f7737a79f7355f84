import EvmObject.CommandLine.Usage
/-!
Reading the words of a command line. A word is read by its shape first: `--`, a long option, a
cluster of short options, or plain. A value that follows its option in a word of its own is looked
at only when the next option comes or the line ends.
-/
namespace EvmObject.CommandLine

inductive Verb where
  | validate | disasm | run
deriving DecidableEq, Repr

/-- Options without a value. -/
inductive Switch where
  | debug | noValidate | help | version
deriving DecidableEq, Repr

/-- Options with a value. -/
inductive Slot where
  | hex | file | gasLimit
deriving DecidableEq, Repr

inductive Opt where
  | switch (s : Switch)
  | slot (s : Slot)
deriving DecidableEq, Repr

structure Settings where
  hex : Option String
  file : Option String
  gasLimit : Option UInt64
  debug : Bool
  noValidate : Bool
deriving DecidableEq, Repr

def Settings.blank : Settings := ⟨none, none, none, false, false⟩

structure Invocation where
  verb : Verb
  settings : Settings
deriving DecidableEq, Repr

inductive Token where
  /-- Two dashes: all later words are plain. -/
  | escape
  | long (name : List Char) (value : Option (List Char))
  /-- A dash and the characters after it, at least one. -/
  | short (cluster : List Char)
  | plain
deriving DecidableEq, Repr

namespace Token

/-- The characters before the first equals sign, and those after it. -/
def splitValue : List Char → List Char × Option (List Char)
  | [] => ([], none)
  | '=' :: rest => ([], some rest)
  | c :: rest => (c :: (splitValue rest).1, (splitValue rest).2)

/-- A single dash is plain. -/
def ofText : List Char → Token
  | ['-', '-'] => escape
  | '-' :: '-' :: rest => long (splitValue rest).1 (splitValue rest).2
  | ['-'] => plain
  | '-' :: rest => short rest
  | _ => plain

end Token

/-- Reads decimal digits, with or without a plus in front, as a 64-bit number. -/
def readUInt64? (text : List Char) : Option UInt64 :=
  let digits := match text with
    | '+' :: rest => rest
    | _ => text
  if digits = [] ∨ digits.any fun c => !c.isDigit then none
  else
    let n := digits.foldl (fun n c => n * 10 + (c.toNat - 48)) 0
    if n < UInt64.size then some (UInt64.ofNat n) else none

namespace Verb

def named? : String → Option Verb
  | "validate" => some validate
  | "disasm" => some disasm
  | "run" => some run
  | _ => none

def long? (verb : Verb) (name : List Char) : Option Opt :=
  match String.ofList name, verb with
  | "hex", _ => some (.slot .hex)
  | "file", _ => some (.slot .file)
  | "debug", _ => some (.switch .debug)
  | "help", _ => some (.switch .help)
  | "version", _ => some (.switch .version)
  | "no-validate", disasm => some (.switch .noValidate)
  | "gas-limit", run => some (.slot .gasLimit)
  | _, _ => none

end Verb

def short? : Char → Option Opt
  | 'f' => some (.slot .file)
  | 'h' => some (.switch .help)
  | 'V' => some (.switch .version)
  | _ => none

namespace Settings

def assign (s : Settings) (slot : Slot) (value : String) : Except UsageFault Settings :=
  match slot with
  | .hex => if s.hex.isSome then .error .conflict else .ok { s with hex := value }
  | .file =>
    if s.file.isSome then .error .conflict
    else if value = "" then .error .missingValue
    else .ok { s with file := value }
  | .gasLimit =>
    if s.gasLimit.isSome then .error .conflict
    else match readUInt64? value.toList with
      | some gas => .ok { s with gasLimit := gas }
      | none => .error .unreadableValue

def turnOn (s : Settings) : Switch → Except UsageFault Settings
  | .debug => if s.debug then .error .conflict else .ok { s with debug := true }
  | .noValidate => if s.noValidate then .error .conflict else .ok { s with noValidate := true }
  | .help => .error .help
  | .version => .error .version

end Settings

/-- The settings so far, and the option whose value is yet to come or to be looked at. -/
structure Partial where
  settings : Settings
  pending : Option (Slot × Option String)

namespace Partial

def settle (p : Partial) : Except UsageFault Settings :=
  match p.pending with
  | none => .ok p.settings
  | some (_, none) => .error .missingValue
  | some (slot, some value) => p.settings.assign slot value

def switch (p : Partial) (s : Switch) : Except UsageFault Partial := do
  let settings ← p.settle
  let settings ← settings.turnOn s
  return ⟨settings, none⟩

def slot (p : Partial) (s : Slot) (value : Option (List Char)) : Except UsageFault Partial := do
  let settings ← p.settle
  match value with
  | some text =>
    let settings ← settings.assign s (String.ofList text)
    return ⟨settings, none⟩
  | none => return ⟨settings, some (s, none)⟩

def long (verb : Verb) (p : Partial) (name : List Char) (value : Option (List Char)) :
    Except UsageFault Partial :=
  match verb.long? name, value with
  | none, _ => .error .unknownArgument
  | some (.slot s), _ => p.slot s value
  | some (.switch s), none => p.switch s
  | some (.switch _), some _ => .error .unneededValue

/-- Short options one after the other; what follows one with a value is the value, with or without
an equals sign in front. -/
def cluster (p : Partial) : List Char → Except UsageFault Partial
  | [] => .ok p
  | c :: rest =>
    match short? c with
    | none => .error .unknownArgument
    | some (.switch s) =>
      match p.switch s with
      | .ok p => p.cluster rest
      | .error e => .error e
    | some (.slot s) =>
      match rest with
      | [] => p.slot s none
      | '=' :: value => p.slot s (some value)
      | value => p.slot s (some value)

/-- A plain word is the value of the option before it, or one too many. -/
def plain (p : Partial) (text : String) : Except UsageFault Partial :=
  match p.pending with
  | some (slot, none) => .ok ⟨p.settings, some (slot, some text)⟩
  | _ => .error .unknownArgument

def scan (verb : Verb) (p : Partial) : List String → Except UsageFault Settings
  | [] => p.settle
  | word :: rest =>
    let read : Except UsageFault (Option Partial) := match Token.ofText word.toList with
      | .escape => .ok none
      | .long name value => (p.long verb name value).map some
      | .short cs => (p.cluster cs).map some
      | .plain => (p.plain word).map some
    match read with
    | .error e => .error e
    | .ok (some p) => p.scan verb rest
    | .ok none => if rest = [] then p.settle else .error .unknownArgument

end Partial

/-- Words that stand where a command may: the commands, and the one that asks for help. -/
def isCommand (word : String) : Bool :=
  word = "help" || (Verb.named? word).isSome

def helpAbout : List String → UsageFault
  | [] => .help
  | [word] => if isCommand word then .help else .unknownCommand
  | _ => .unknownCommand

def general : Option Opt → UsageFault
  | some (.switch .help) => .help
  | some (.switch .version) => .version
  | _ => .unknownArgument

def parse : List String → Except UsageFault Invocation
  | [] => .error .missingCommand
  | word :: rest =>
    match Verb.named? word with
    | some verb => do
      let settings ← Partial.scan verb ⟨.blank, none⟩ rest
      if settings.hex.isSome ∧ settings.file.isSome then throw .conflict
      return ⟨verb, settings⟩
    | none =>
      if word = "help" then .error (helpAbout rest)
      else match Token.ofText word.toList with
        | .escape =>
          match rest with
          | [] => .error .missingCommand
          | next :: _ => .error (if isCommand next then .unknownArgument else .unknownCommand)
        | .long name value =>
          match general (Verb.validate.long? name), value with
          | .unknownArgument, _ => .error .unknownArgument
          | fault, none => .error fault
          | _, some _ => .error .unneededValue
        | .short cs => .error (general (cs.head?.bind short?))
        | .plain => .error .unknownCommand

end EvmObject.CommandLine
