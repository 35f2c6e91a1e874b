import SelfReference.Definitions.Written
import SelfReference.Graph
import SelfReference.Json.Printer
import SelfReference.Json.Reader
import SelfReference.Toml.Printer
import SelfReference.Toml.Reader

/-!
# Definition files

A definition file is a list of names with written formulas, in JSON or in TOML.  In both formats
an element with fixed fields may be written as a table or by position, unknown keys are passed
over, and a formula is a table with exactly one key.  In JSON a known key must not be repeated,
nothing may follow the last position, and what is read nests to a limited depth.
-/

namespace SelfReference

/-- The content of a definition file, in its order. -/
structure DefinitionFile where
  sentences : List (String × Written) := []

inductive FileFormat where
  | toml
  | json
  deriving DecidableEq

def FileFormat.name : FileFormat → String
  | toml => "TOML"
  | json => "JSON"

/-! ### JSON -/

namespace Json

/-- How deep arrays and objects nest in what is read. -/
def depthLimit : Nat := 127

end Json

namespace Written

mutual

def toJson : Written → Json
  | lit text => .obj [("lit", .str text)]
  | ref name => .obj [("ref", .str name)]
  | neg w => .obj [("not", toJson w)]
  | conj ws => .obj [("and", .arr (toJsons ws))]
  | disj ws => .obj [("or", .arr (toJsons ws))]

def toJsons : List Written → List Json
  | [] => []
  | w :: ws => toJson w :: toJsons ws

end

/-- The written formula of a JSON value with at most so many levels of arrays and objects. -/
def ofJson? : Nat → Json → Option Written
  | 0, _ => none
  | depth + 1, .obj [(key, v)] =>
    match key, v with
    | "lit", v => v.text?.map lit
    | "ref", v => v.text?.map ref
    | "not", v => (ofJson? depth v).map neg
    | "and", .arr vs => if depth = 0 then none else (vs.mapM (ofJson? (depth - 1))).map conj
    | "or", .arr vs => if depth = 0 then none else (vs.mapM (ofJson? (depth - 1))).map disj
    | _, _ => none
  | _ + 1, _ => none
termination_by depth => depth

end Written

/-! ### TOML -/

namespace Toml

def text? : Toml → Option String
  | str text => some text
  | _ => none

end Toml

namespace Written

mutual

def toToml : Written → Toml
  | lit text => .table [("lit", .str text)]
  | ref name => .table [("ref", .str name)]
  | neg w => .table [("not", toToml w)]
  | conj ws => .table [("and", .arr (toTomls ws))]
  | disj ws => .table [("or", .arr (toTomls ws))]

def toTomls : List Written → List Toml
  | [] => []
  | w :: ws => toToml w :: toTomls ws

end

mutual

def ofToml? : Toml → Option Written
  | .table [(key, v)] =>
    match key, v with
    | "lit", v => v.text?.map lit
    | "ref", v => v.text?.map ref
    | "not", v => (ofToml? v).map neg
    | "and", .arr vs => (ofTomls? vs).map conj
    | "or", .arr vs => (ofTomls? vs).map disj
    | _, _ => none
  | _ => none

def ofTomls? : List Toml → Option (List Written)
  | [] => some []
  | v :: vs => do
    let w ← ofToml? v
    let ws ← ofTomls? vs
    some (w :: ws)

end

end Written

/-! ### Files -/

namespace DefinitionFile

def toJson (file : DefinitionFile) : Json :=
  .obj [("sentence", .arr (file.sentences.map fun (name, w) =>
    .obj [("name", .str name), ("formula", w.toJson)]))]

def sentenceOfJson? (depth : Nat) : Json → Option (String × Written)
  | .obj members => do
    let some name ← Json.field? "name" members | none
    let some formula ← Json.field? "formula" members | none
    some (← name.text?, ← Written.ofJson? depth formula)
  | .arr [name, formula] => do some (← name.text?, ← Written.ofJson? depth formula)
  | _ => none

def sentencesOfJson? (depth : Nat) : Json → Option (List (String × Written))
  | .arr vs => vs.mapM (sentenceOfJson? depth)
  | _ => none

/-- The file of a JSON value.  Its object, its array of sentences and every sentence take a level
of the depth. -/
def ofJson? : Json → Option DefinitionFile
  | .obj members => do
    match ← Json.field? "sentence" members with
    | none => some {}
    | some v => (sentencesOfJson? (Json.depthLimit - 3) v).map mk
  | .arr [] => some {}
  | .arr [v] => (sentencesOfJson? (Json.depthLimit - 3) v).map mk
  | _ => none

def toToml (file : DefinitionFile) : List (String × Toml) :=
  [("sentence", .arr (file.sentences.map fun (name, w) =>
    .table [("name", .str name), ("formula", w.toToml)]))]

def sentenceOfToml? : Toml → Option (String × Written)
  | .table members => do
    let name ← Toml.member? "name" members
    let formula ← Toml.member? "formula" members
    some (← name.text?, ← Written.ofToml? formula)
  | .arr (name :: formula :: _) => do some (← name.text?, ← Written.ofToml? formula)
  | _ => none

def ofToml? (members : List (String × Toml)) : Option DefinitionFile :=
  match Toml.member? "sentence" members with
  | none => some {}
  | some (.arr vs) => (vs.mapM sentenceOfToml?).map mk
  | some _ => none

def same (a b : DefinitionFile) : Bool :=
  a.sentences.length = b.sentences.length &&
    (a.sentences.zip b.sentences).all fun (s, t) => s.1 = t.1 && s.2.same t.2

/-! ### Text -/

def jsonText (file : DefinitionFile) : String := file.toJson.compact

def tomlText (file : DefinitionFile) : String := Toml.pretty file.toToml

def read? : FileFormat → String → Option DefinitionFile
  | .toml, text => (Toml.read? text).bind ofToml?
  | .json, text => (Json.read? text).bind ofJson?

/-! ### Graphs -/

/-- The graph of a file.  Faults of formulas are reported, in the order of the file, before any
fault of a name or reference. -/
def graph (file : DefinitionFile) : Except Error SentenceGraph := do
  SentenceGraph.ofDefinitions
    (← file.sentences.mapM fun (name, w) => (w.resolve name).map (name, ·))

/-- The file of a graph, in the order of names. -/
def ofGraph (g : SentenceGraph) : DefinitionFile :=
  ⟨g.sentences.entries.map fun (name, f) => (name, Written.ofFormula f)⟩

end DefinitionFile

namespace SentenceGraph

def parse (format : FileFormat) (text : String) : Except Error SentenceGraph :=
  match DefinitionFile.read? format text with
  | some file => file.graph
  | none => .error (.definitions (.unreadable format.name))

end SentenceGraph

end SelfReference
