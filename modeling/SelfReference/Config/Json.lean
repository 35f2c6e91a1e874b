import SelfReference.Config
import SelfReference.Json.Value

/-!
# Solver configurations in JSON

A configuration is an object whose missing members have their defaults, or an array of the same
values by position.  A bound of `null` is no bound.
-/

namespace SelfReference

namespace Json

/-- A natural number of at most 64 bits. -/
def word? : Json → Option Nat
  | num literal => (natOfLiteral? literal).filter (· < Text.wordLimit)
  | _ => none

/-- A truth value of two. -/
def bool? : Json → Option Bool
  | bool b => some b
  | _ => none

end Json

/-- The grounding of a JSON value: its name, or an object with its name as the only key. -/
def Grounding.ofJson? : Json → Option Grounding
  | .str name => ofName? name
  | .obj [(name, .null)] => ofName? name
  | _ => none

namespace SolverConfig

/-- The bound on rounds of a JSON value. -/
def boundOfJson? : Json → Option (Option Nat)
  | .null => some none
  | v => v.word?.map some

def orDefault {α β : Type} (default : β) (read : α → Option β) : Option α → Option β
  | none => some default
  | some v => read v

def ofJsonFields? (bound grounding recordTrace verifyOperators workers : Option Json) :
    Option SolverConfig := do
  some {
    maxIterations := ← orDefault none boundOfJson? bound
    grounding := ← orDefault .closedWorld Grounding.ofJson? grounding
    recordTrace := ← orDefault false Json.bool? recordTrace
    verifyOperators := ← orDefault false Json.bool? verifyOperators
    workers := ← orDefault 4 Json.word? workers }

/-- The configuration of a JSON value.  A known key must not be repeated, and nothing may follow
the last position. -/
def ofJson? : Json → Option SolverConfig
  | .obj members => do
    let field (key : String) := Json.field? key members
    ofJsonFields? (← field "max_iterations") (← field "grounding") (← field "record_trace")
      (← field "verify_operators") (← field "workers")
  | .arr vs =>
    if vs.length ≤ 5 then ofJsonFields? vs[0]? vs[1]? vs[2]? vs[3]? vs[4]? else none
  | _ => none

/-- A configuration as a JSON value; a missing bound is left out. -/
def toJson (c : SolverConfig) : Json :=
  .obj ((c.maxIterations.toList.map fun n => ("max_iterations", Json.ofNat n)) ++
    [("grounding", .str c.grounding.name), ("record_trace", .bool c.recordTrace),
      ("verify_operators", .bool c.verifyOperators), ("workers", Json.ofNat c.workers)])

end SolverConfig

end SelfReference
