import SelfReference.FileTree
import SelfReference.Program.Failure
import SelfReference.Settings

/-!
# The settings file

Settings are read from a file that the user names, or from the one in the home directory.  Where
there is none in the home directory, the defaults are saved there; whether that succeeds does not
matter to what is read.  Saving makes the missing parents of the file first and writes nothing
where the settings have no text, so a file that was there before is kept.
-/

namespace SelfReference.Settings

def ofFile (found : Except FileError String) : Except Failure Settings :=
  match found with
  | .error cause => .error (.settingsFile cause)
  | .ok text =>
    match read? text with
    | some s => .ok s
    | none => .error .settingsText

def save (s : Settings) : Except Failure String :=
  match s.text? with
  | some text => .ok text
  | none => .error .settingsRange

/-- The settings of the home directory, and those to be saved there if there are none.  `found` is
what reading the file gave, `none` where there is no such file. -/
def load (found : Option (Except FileError String)) : Except Failure Settings × Option Settings :=
  match found with
  | some found => (ofFile found, none)
  | none => (.ok {}, some {})

/-! ### In a file tree -/

def loadFrom (t : FileTree) (path : String) : Except Failure Settings := ofFile (t.read path)

/-- Saves settings in the file at a path; the tree is answered as it is afterwards. -/
def saveTo (t : FileTree) (path : String) (s : Settings) : Except Failure Unit × FileTree :=
  match t.makeDirectories (.ofString (FileTree.Path.parent path)) with
  | (.error cause, t) => (.error (.settingsFile cause), t)
  | (.ok (), t) =>
    match s.save with
    | .error failure => (.error failure, t)
    | .ok text =>
      let p := FileTree.Path.ofString path
      match t.write p.directory p.last text.toUTF8 with
      | .error cause => (.error (.settingsFile cause), t)
      | .ok t => (.ok (), t)

/-! ### In a home directory -/

/-- The directory of the settings file below a home directory. -/
def directoryName : String := ".prr"

def fileName : String := "config.toml"

/-- The path of the directory of the settings file. -/
def homeDirectory (home : String) : String := FileTree.Path.join home directoryName

/-- The path of the settings file of a home directory. -/
def homeFile (home : String) : String := FileTree.Path.join (homeDirectory home) fileName

/-- What reading the settings file of a home directory gives, `none` where there is no such
file. -/
def foundIn (t : FileTree) (home : String) : Option (Except FileError String) :=
  ((t.find (homeFile home)).toOption).map FileKind.text

/-- Saves first settings in a home directory, if there are any to be saved; a failure is passed
over. -/
def keepFirst (t : FileTree) (home : String) : Option Settings → FileTree
  | none => t
  | some s => (s.saveTo t (homeFile home)).2

/-- The settings of a home directory, and the tree after they were loaded. -/
def loadHome (t : FileTree) (home : String) : Except Failure Settings × FileTree :=
  let (loaded, first) := load (foundIn t home)
  (loaded, keepFirst t home first)

end SelfReference.Settings
