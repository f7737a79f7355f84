/-!
The ways a command line can fail to name something to do. Asking for help or for the version is one
of them, as nothing is done then.
-/
namespace EvmObject.CommandLine

inductive UsageFault where
  | help
  | version
  | missingCommand
  | unknownCommand
  | unknownArgument
  /-- An option without its value, or with an empty one where none may be. -/
  | missingValue
  | unreadableValue
  | unneededValue
  /-- An option given twice, or two that exclude each other. -/
  | conflict
deriving DecidableEq, Repr

namespace UsageFault

def name : UsageFault → String
  | help => "DisplayHelp"
  | version => "DisplayVersion"
  | missingCommand => "DisplayHelpOnMissingArgumentOrSubcommand"
  | unknownCommand => "InvalidSubcommand"
  | unknownArgument => "UnknownArgument"
  | missingValue => "InvalidValue"
  | unreadableValue => "ValueValidation"
  | unneededValue => "TooManyValues"
  | conflict => "ArgumentConflict"

/-- Help and version were asked for; all else is a mistake. -/
def exitCode : UsageFault → Nat
  | help | version => 0
  | _ => 2

end UsageFault
end EvmObject.CommandLine
