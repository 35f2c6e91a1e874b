import SelfReference.Assignment

/-!
# Errors

What can go wrong between a definition file and a stable assignment, as causes.  The wording of
each is in one function.
-/

namespace SelfReference

inductive Flaw where
  | emptyName
  | emptyReference
  | unknownLiteral (text : String)
  | noOperands (connective : String)
  | other (reason : String)
  deriving DecidableEq

def Flaw.message : Flaw → String
  | emptyName => "sentence name is empty"
  | emptyReference => "reference to an empty sentence name"
  | unknownLiteral text => s!"unknown literal '{text}'"
  | noOperands connective => s!"'{connective}' needs at least one operand"
  | other reason => reason

/-- Why a file could not be read or written. -/
inductive FileError where
  | notFound
  | isDirectory
  | notDirectory
  | notText
  | alreadyExists
  /-- A name of more than 255 bytes, or a path of 4096 bytes or more. -/
  | nameTooLong
  /-- A path with a null character. -/
  | nullInPath
  | other (reason : String)
  deriving DecidableEq

def FileError.message : FileError → String
  | notFound => "No such file or directory (os error 2)"
  | isDirectory => "Is a directory (os error 21)"
  | notDirectory => "Not a directory (os error 20)"
  | notText => "stream did not contain valid UTF-8"
  | alreadyExists => "File exists (os error 17)"
  | nameTooLong => "File name too long (os error 36)"
  | nullInPath => "file name contained an unexpected NUL byte"
  | other reason => reason

/-- Why a text is not a list of definitions. -/
inductive DefinitionFault where
  /-- The name of the file ends in neither known way. -/
  | unsupportedType (path : String)
  /-- The text does not follow its format, or not the shape of definitions. -/
  | unreadable (format : String)
  /-- The same, for the text of a file. -/
  | unreadableFile (path format : String)
  | other (description : String)
  deriving DecidableEq

def DefinitionFault.message : DefinitionFault → String
  | unsupportedType path => s!"{path}: unsupported file type (expected .toml or .json)"
  | unreadable format => s!"not a {format} list of definitions"
  | unreadableFile path format => s!"{path}: not a {format} list of definitions"
  | other description => description

inductive Error where
  /-- A formula refers to a name that is not defined. -/
  | undefinedReference (sentence reference : String)
  /-- A sentence is not well formed. -/
  | malformedFormula (sentence : String) (flaw : Flaw)
  /-- A name is defined twice. -/
  | duplicateSentence (name : String)
  /-- The bound on rounds was reached before a round without change. -/
  | nonConvergence (bound : Nat) (last : Assignment)
  /-- The connectives break the information order. -/
  | nonMonotone (description : String)
  /-- A text is not a list of definitions. -/
  | definitions (fault : DefinitionFault)
  /-- A definition file cannot be read. -/
  | file (cause : FileError)
  /-- A round is to be shared by more tasks than can be kept track of. -/
  | tooManyTasks
  /-- A concurrent task failed. -/
  | worker (description : String)
  deriving DecidableEq

namespace Error

def message : Error → String
  | undefinedReference s r =>
    s!"Undefined reference: sentence '{s}' references unknown sentence '{r}'"
  | malformedFormula s flaw => s!"Malformed formula in sentence '{s}': {flaw.message}"
  | duplicateSentence n => s!"Duplicate sentence: '{n}' is defined more than once"
  | nonConvergence bound _ => s!"No convergence after {bound} rounds"
  | nonMonotone d => s!"Non-monotone operator: {d}"
  | definitions fault => s!"Definition error: {fault.message}"
  | file cause => s!"I/O error: {cause.message}"
  | tooManyTasks => "capacity overflow"
  | worker d => s!"Worker error: {d}"

/-- Errors of the definitions themselves, before any round is run. -/
def isConstruction : Error → Bool
  | undefinedReference .. | malformedFormula .. | duplicateSentence .. | definitions .. => true
  | nonConvergence .. | nonMonotone .. | file .. | tooManyTasks | worker .. => false

/-- The last assignment before giving up. -/
def last? : Error → Option Assignment
  | nonConvergence _ last => some last
  | _ => none

end Error

end SelfReference
