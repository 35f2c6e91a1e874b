import SelfReference.Error

/-!
# Failures

Why a command of the program ends without success, and how that is reported.
-/

namespace SelfReference

/-- Why a command ends without success. -/
inductive Failure where
  /-- The definitions could not be loaded or solved. -/
  | unsolved (e : Error)
  /-- The settings file could not be read. -/
  | settingsFile (cause : FileError)
  /-- The text of the settings file does not follow its format. -/
  | settingsText
  /-- The settings cannot be written: a number is out of range. -/
  | settingsRange
  /-- Some of the files could not be solved. -/
  | someFiles (failed total : Nat)

namespace Failure

def message : Failure → String
  | unsolved e => e.message
  | settingsFile cause => s!"I/O error: {cause.message}"
  | settingsText => "TOML parsing error: not a settings file"
  | settingsRange =>
    "Configuration error: Failed to serialize config: out-of-range value for u64 type"
  | someFiles failed total => s!"{failed} of {total} file(s) failed"

/-- A failure with its causes, the outermost first. -/
def chain (f : Failure) : List String :=
  f.message ::
    match f with
    | unsolved (.file cause) | settingsFile cause => [cause.message]
    | settingsText => ["not a settings file"]
    | unsolved _ | settingsRange | someFiles .. => []

end Failure

end SelfReference
