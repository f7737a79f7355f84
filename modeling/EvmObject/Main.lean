import EvmObject.CommandLine
/-!
The program: it reads the file that it is told to read, prints, and exits.
-/
namespace EvmObject

open CommandLine

def readFile (path : String) : IO (Except String (List UInt8)) := do
  match ← (IO.FS.readBinFile path).toBaseIO with
  | .ok content => return .ok content.data.toList
  | .error (.noFileOrDirectory ..) => return .error "No such file or directory (os error 2)"
  | .error e => return .error (toString e)

def openFiles (s : Settings) : IO Files := do
  match s.hex, s.file with
  | none, some path =>
    let content ← readFile path
    return fun _ => content
  | _, _ => return fun _ => .error ""

end EvmObject

open EvmObject CommandLine in
def main (args : List String) : IO UInt32 := do
  match parse args with
  | .error fault =>
    IO.eprintln fault.name
    return UInt32.ofNat fault.exitCode
  | .ok invocation =>
    let response := respond (← openFiles invocation.settings) invocation
    IO.print (String.ofList (stdout invocation response))
    match response.failure with
    | none => return 0
    | some message =>
      IO.eprintln s!"Error: {message}"
      return 1
