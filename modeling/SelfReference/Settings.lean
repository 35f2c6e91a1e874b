import SelfReference.Config.Toml

/-!
# Settings

What is kept in the settings file: how output is written, and the defaults of the solver.  Every
value may be missing from the file; a file that is missing altogether is written with the
defaults.
-/

namespace SelfReference

inductive OutputFormat where
  | table
  | json
  | quiet
  deriving DecidableEq

def OutputFormat.name : OutputFormat → String
  | table => "table"
  | json => "json"
  | quiet => "quiet"

def OutputFormat.ofName? : String → Option OutputFormat
  | "table" => some table
  | "json" => some json
  | "quiet" => some quiet
  | _ => none

@[simp] theorem OutputFormat.ofName?_name (f : OutputFormat) : ofName? f.name = some f := by
  cases f <;> rfl

structure Settings where
  color : Bool := true
  format : OutputFormat := .table
  solver : SolverConfig := {}
  deriving DecidableEq

namespace Settings

/-- The values about output, from a table or by position. -/
def outputOfToml? (v : Toml) : Option (Bool × OutputFormat) := do
  let (color, format) ← match v with
    | .table members => some (Toml.member? "color" members, Toml.member? "format" members)
    | .dateTime _ => some (none, none)
    | .arr vs => some (vs[0]?, vs[1]?)
    | _ => none
  some (← SolverConfig.orDefault true Toml.bool? color,
    ← SolverConfig.orDefault .table (fun v => v.choice?.bind OutputFormat.ofName?) format)

def ofToml? (members : List (String × Toml)) : Option Settings := do
  let (color, format) ←
    SolverConfig.orDefault (true, .table) outputOfToml? (Toml.member? "settings" members)
  let solver ← SolverConfig.orDefault {} SolverConfig.ofToml? (Toml.member? "solver" members)
  some { color, format, solver }

def read? (text : String) : Option Settings := (Toml.read? text).bind ofToml?

/-- Settings as the members of a table; `none` where a number is out of range. -/
def toToml? (s : Settings) : Option (List (String × Toml)) := do
  let solver ← s.solver.toToml?
  some [("settings", .table [("color", .bool s.color), ("format", .str s.format.name)]),
    ("solver", .table solver)]

def text? (s : Settings) : Option String := s.toToml?.map Toml.pretty

end Settings

end SelfReference
