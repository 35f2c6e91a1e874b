import SelfReference.Error
import SelfReference.Text.Split

/-!
# File trees

The files and directories of a system from its root down, and the directory that a program works
in.  A path names a place step by step, from the root if its text begins with a slash and from the
working directory otherwise; each step, also one to the directory itself or to its parent, needs a
directory to start from.  The root is its own parent.  There are no links, and every file may be
read and written.
-/

namespace SelfReference

/-- A file with its bytes, or a directory. -/
inductive FileNode where
  | file (bytes : ByteArray)
  | directory (entries : List (String × FileNode))

/-- What is at a place, the entries of a directory apart. -/
inductive FileKind where
  | file (bytes : ByteArray)
  | directory

instance : DecidableEq FileKind
  | .file a, .file b =>
    decidable_of_iff (a.data = b.data) (by rw [FileKind.file.injEq, ByteArray.ext_iff])
  | .directory, .directory => isTrue rfl
  | .file _, .directory | .directory, .file _ => isFalse nofun

/-- A file, or a directory without entries. -/
def FileKind.node : FileKind → FileNode
  | file bytes => .file bytes
  | directory => .directory []

/-- The entries of the root, and the names from there down to the working directory. -/
structure FileTree where
  entries : List (String × FileNode)
  working : List String

/-- Where files are found: the text of a path, or why there is none. -/
abbrev Files := String → Except FileError String

namespace FileTree

/-! ### Paths -/

/-- The largest number of bytes in a name. -/
def nameLimit : Nat := 255

/-- The least number of bytes that a path cannot have. -/
def pathLimit : Nat := 4096

/-- A path: whether it begins at the root, its steps, and whether it ends with a slash, which asks
for a directory. -/
structure Path where
  fromRoot : Bool := false
  steps : List String
  slash : Bool := false
  /-- Why nothing is looked for at the path, if its text is not one of a path. -/
  fault : Option FileError := none
  deriving DecidableEq

namespace Path

/-- The parts of a text between its slashes. -/
def parts (path : String) : List String := (Text.split '/' path.toList).map String.ofList

def textFault? (path : String) : Option FileError :=
  if '\x00' ∈ path.toList then some .nullInPath
  else if path = "" then some .notFound
  else if pathLimit ≤ path.utf8ByteSize then some .nameTooLong
  else none

/-- The path that a text writes. -/
def ofString (path : String) : Path where
  fromRoot := path.toList.head? = some '/'
  steps := (parts path).filter (· ≠ "")
  slash := path.toList.getLast? = some '/'
  fault := textFault? path

/-- The steps to the directory that the last step is taken in. -/
def directory (p : Path) : Path := { p with steps := p.steps.dropLast }

/-- The name that a file at the path would have. -/
def last (p : Path) : String := if p.slash then "." else p.steps.getLastD "."

/-- The text of a path with one name more. -/
def join (path name : String) : String :=
  if path = "" ∨ path.toList.getLast? = some '/' then path ++ name else path ++ "/" ++ name

/-- Whether a part leads nowhere else. -/
def stays (part : String) : Bool := part = "" ∨ part = "."

/-- Parts without those at the end that lead nowhere else. -/
def trimmed (parts : List String) : List String := (parts.reverse.dropWhile stays).reverse

/-- The text of a path without its last name and all that follows the name before. -/
def parent (path : String) : String :=
  Text.joined "/" (trimmed (trimmed (parts path)).dropLast)

end Path

/-! ### Places -/

def kindIn? : List String → List (String × FileNode) → Option FileKind
  | [], _ => some .directory
  | s :: ss, entries =>
    match entries.lookup s with
    | none => none
    | some (.file bytes) => if ss = [] then some (.file bytes) else none
    | some (.directory entries) => kindIn? ss entries

/-- What is at the place that names lead to from the root. -/
def kind? (t : FileTree) (names : List String) : Option FileKind := kindIn? names t.entries

/-- The place one step from another. -/
def step (here : List String) (s : String) : List String :=
  if s = "." then here else if s = ".." then here.dropLast else here ++ [s]

/-- The place that steps lead to from another. -/
def walk (t : FileTree) : List String → List String → Except FileError (List String)
  | here, [] => .ok here
  | here, s :: ss =>
    match t.kind? here with
    | none => .error .notFound
    | some (.file _) => .error .notDirectory
    | some .directory =>
      if nameLimit < s.utf8ByteSize then .error .nameTooLong else t.walk (step here s) ss

/-- Where the steps of a path begin. -/
def start (t : FileTree) (p : Path) : List String := if p.fromRoot then [] else t.working

/-- A tree of a working directory with some entries and nothing beside it. -/
def directory (entries : List (String × FileNode)) : FileTree :=
  ⟨[("work", .directory entries)], ["work"]⟩

/-! ### Reading -/

def follow (t : FileTree) (p : Path) : Except FileError FileKind :=
  match p.fault with
  | some cause => .error cause
  | none =>
    match t.walk (t.start p) p.steps with
    | .error cause => .error cause
    | .ok place =>
      match t.kind? place with
      | none => .error .notFound
      | some (.file bytes) => if p.slash then .error .notDirectory else .ok (.file bytes)
      | some .directory => .ok .directory

def find (t : FileTree) (path : String) : Except FileError FileKind := t.follow (.ofString path)

end FileTree

def FileKind.text : FileKind → Except FileError String
  | directory => .error .isDirectory
  | file bytes =>
    match String.fromUTF8? bytes with
    | some text => .ok text
    | none => .error .notText

namespace FileTree

def read (t : FileTree) : Files := fun path => (t.find path).bind FileKind.text

/-! ### Writing -/

/-- Puts a node at a key of a directory, in place of what was there. -/
def setEntry (key : String) (u : FileNode) : List (String × FileNode) → List (String × FileNode)
  | [] => [(key, u)]
  | (k, v) :: es => if k = key then (k, u) :: es else (k, v) :: setEntry key u es

/-- Only the node at the key changes. -/
theorem lookup_setEntry (key : String) (u : FileNode) (es : List (String × FileNode))
    (k : String) : (setEntry key u es).lookup k = if k = key then some u else es.lookup k := by
  induction es with
  | nil =>
    by_cases h : k = key
    · simp [setEntry, h]
    · simp [setEntry, List.lookup_cons, beq_eq_false_iff_ne.2 h, h]
  | cons e es ih =>
    obtain ⟨k', v⟩ := e
    unfold setEntry
    split
    · rename_i h
      subst h
      by_cases hk : k = k'
      · simp [hk]
      · simp [List.lookup_cons, beq_eq_false_iff_ne.2 hk, hk]
    · rename_i hne
      by_cases hk : k = k'
      · subst hk
        simp [hne]
      · simp [List.lookup_cons, beq_eq_false_iff_ne.2 hk, ih]

def putIn (k : FileKind) : List String → List (String × FileNode) → List (String × FileNode)
  | [], entries => entries
  | s :: ss, entries =>
    if ss = [] then setEntry s k.node entries
    else
      match entries.lookup s with
      | some (.directory inner) => setEntry s (.directory (putIn k ss inner)) entries
      | some (.file _) | none => entries

/-- The tree with a file or an empty directory at a place, if that is in a directory. -/
def put (k : FileKind) (place : List String) (t : FileTree) : FileTree :=
  { t with entries := putIn k place t.entries }

/-- Makes a directory at the place of some steps, where nothing is. -/
def makeDirectory (here steps : List String) (t : FileTree) : Except FileError FileTree :=
  match t.walk here steps with
  | .error cause => .error cause
  | .ok place =>
    match t.kind? place with
    | some _ => .error .alreadyExists
    | none => .ok (t.put .directory place)

/-- Makes a directory unless there is one already. -/
def ensureDirectory (here steps : List String) (t : FileTree) :
    Except FileError Unit × FileTree :=
  match t.makeDirectory here steps with
  | .ok t => (.ok (), t)
  | .error cause =>
    if (t.walk here steps).toOption.any fun place => t.kind? place = some .directory then
      (.ok (), t)
    else (.error cause, t)

/-- Makes the directories along steps, which come the last one first: those before the last one
only if it cannot be made without them.  What was made before one could not be made is kept. -/
def makeAlong (here : List String) : List String → FileTree → Except FileError Unit × FileTree
  | [], t => (.ok (), t)
  | s :: before, t =>
    match t.makeDirectory here (s :: before).reverse with
    | .error .notFound =>
      match makeAlong here before t with
      | (.ok (), t) => t.ensureDirectory here (s :: before).reverse
      | (.error cause, t) => (.error cause, t)
    | _ => t.ensureDirectory here (s :: before).reverse

/-- Makes the directory of a path and all that the path leads through; the tree is answered as it
is afterwards. -/
def makeDirectories (p : Path) (t : FileTree) : Except FileError Unit × FileTree :=
  if p.steps = [] then (.ok (), t)
  else
    match p.fault with
    | some cause => (.error cause, t)
    | none => makeAlong (t.start p) p.steps.reverse t

/-- The tree with a file of some name written in the directory that the steps of a path lead to. -/
def write (p : Path) (name : String) (bytes : ByteArray) (t : FileTree) :
    Except FileError FileTree :=
  match p.fault with
  | some cause => .error cause
  | none =>
    match t.walk (t.start p) (p.steps ++ [name]) with
    | .error cause => .error cause
    | .ok place =>
      match t.kind? place with
      | some .directory => .error .isDirectory
      | some (.file _) | none => .ok (t.put (.file bytes) place)

end FileTree

end SelfReference
