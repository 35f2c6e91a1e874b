/-!
# Usage

Why a list of arguments is no invocation.  Asking for help or for the version is one of the
reasons: it also ends the reading of arguments, but nothing went wrong.
-/

namespace SelfReference

/-- Why a list of arguments is no invocation. -/
inductive UsageError where
  /-- An option that the command does not know, or an argument too many. -/
  | unknownArgument (argument : String)
  /-- A value for an option that takes none. -/
  | surplusValue (option : String)
  /-- An option that was given before. -/
  | repeatedOption (option : String)
  /-- An option without its value, or a value that is none of the possible ones. -/
  | invalidValue (argument : String)
  /-- A value that is not a number. -/
  | unreadableValue (argument : String)
  /-- No file was named. -/
  | missingFile
  /-- A command that does not exist. -/
  | unknownCommand (name : String)
  /-- Options, but no command. -/
  | missingCommand
  /-- No argument at all. -/
  | noArguments
  | helpRequested
  | versionRequested
  deriving DecidableEq

namespace UsageError

def isFault : UsageError → Bool
  | helpRequested | versionRequested => false
  | _ => true

def exitCode (e : UsageError) : Nat := if e.isFault then 2 else 0

def summary : String := "Usage: prr [OPTIONS] <solve|check|project> ..."

def message : UsageError → String
  | unknownArgument a => s!"error: unexpected argument '{a}' found"
  | surplusValue o => s!"error: the option '{o}' takes no value"
  | repeatedOption o => s!"error: the option '{o}' cannot be used multiple times"
  | invalidValue a => s!"error: a value is missing or invalid for '{a}'"
  | unreadableValue a => s!"error: not a number for '{a}'"
  | missingFile => "error: a definition file is required"
  | unknownCommand n => s!"error: unrecognized command '{n}'"
  | missingCommand => "error: a command is required"
  | noArguments | helpRequested => summary
  | versionRequested => "prr 0.1.0"

end UsageError

end SelfReference
