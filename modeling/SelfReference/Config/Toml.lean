import SelfReference.Config.Json
import SelfReference.Toml.Printer
import SelfReference.Toml.Reader

/-!
# Solver configurations in TOML

A configuration is a table whose missing members have their defaults, or an array of the same
values by position; a date-time is a table without any known key.  A missing bound cannot be
written by position, and an integer must be within the range of the format.
-/

namespace SelfReference

namespace Toml

def nat? : Toml → Option Nat
  | int (.ofNat n) => some n
  | _ => none

/-- A truth value of two. -/
def bool? : Toml → Option Bool
  | bool b => some b
  | _ => none

/-- The name that a choice among names is written by: the name itself, or a table with the name as
its only key and nothing in it. -/
def choice? : Toml → Option String
  | str name => some name
  | table [(name, .table [])] => some name
  | table [(name, .arr [])] => some name
  | _ => none

/-- A number as an integer, if it is within range. -/
def ofNat? (n : Nat) : Option Toml := if (n : Int) ≤ maxInt then some (.int n) else none

end Toml

namespace SolverConfig

def ofTomlFields? (bound grounding recordTrace verifyOperators workers : Option Toml) :
    Option SolverConfig := do
  some {
    maxIterations := ← orDefault none (fun v => v.nat?.map some) bound
    grounding := ← orDefault .closedWorld (fun v => v.choice?.bind Grounding.ofName?) grounding
    recordTrace := ← orDefault false Toml.bool? recordTrace
    verifyOperators := ← orDefault false Toml.bool? verifyOperators
    workers := ← orDefault 4 Toml.nat? workers }

def ofTomlMembers? (members : List (String × Toml)) : Option SolverConfig :=
  let field (key : String) := Toml.member? key members
  ofTomlFields? (field "max_iterations") (field "grounding") (field "record_trace")
    (field "verify_operators") (field "workers")

def ofToml? : Toml → Option SolverConfig
  | .table members => ofTomlMembers? members
  | .dateTime _ => ofTomlMembers? []
  | .arr vs => ofTomlFields? vs[0]? vs[1]? vs[2]? vs[3]? vs[4]?
  | _ => none

/-- A configuration as the members of a table; a missing bound is left out.  `none` where a number
is out of range. -/
def toToml? (c : SolverConfig) : Option (List (String × Toml)) := do
  let bound ← c.maxIterations.mapM Toml.ofNat?
  let workers ← Toml.ofNat? c.workers
  some ((bound.toList.map fun v => ("max_iterations", v)) ++
    [("grounding", .str c.grounding.name), ("record_trace", .bool c.recordTrace),
      ("verify_operators", .bool c.verifyOperators), ("workers", workers)])

def tomlText? (c : SolverConfig) : Option String := c.toToml?.map Toml.pretty

end SolverConfig

end SelfReference
