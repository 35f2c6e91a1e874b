import SelfReference.Definitions.File
import SelfReference.FileTree

/-!
# Loading definition files

The format of a file is told by the ending of its name, in either case.  Endings are looked at
before anything is read.
-/

namespace SelfReference

/-- The name of the file at a path: the last step that is not to the directory itself. -/
def fileName? (path : String) : Option String :=
  match ((Text.split '/' path.toList).filter fun s => s ≠ [] ∧ s ≠ ['.']).getLast? with
  | some ['.', '.'] => none
  | some s => some (String.ofList s)
  | none => none

/-- What follows the last point of a file name, unless the name begins with it. -/
def extension? (name : String) : Option String :=
  let tail := name.toList.reverse.takeWhile (· ≠ '.')
  if tail.length + 1 < name.toList.length then some (String.ofList tail.reverse) else none

namespace FileFormat

def ofExtension? (extension : String) : Option FileFormat :=
  match Text.lowered extension with
  | "toml" => some toml
  | "json" => some json
  | _ => none

def ofPath? (path : String) : Option FileFormat :=
  ((fileName? path).bind extension?).bind ofExtension?

end FileFormat

namespace SentenceGraph

def load (files : Files) (path : String) : Except Error SentenceGraph :=
  match FileFormat.ofPath? path with
  | none => .error (.definitions (.unsupportedType path))
  | some format =>
    match files path with
    | .error cause => .error (.file cause)
    | .ok text =>
      match DefinitionFile.read? format text with
      | some file => file.graph
      | none => .error (.definitions (.unreadableFile path format.name))

end SentenceGraph

end SelfReference
