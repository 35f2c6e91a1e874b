import SelfReference.Text.Blank

/-!
# Solver configuration

How many rounds a run may take, how a sentence without evidence is read by its own cycle, what is
recorded and checked, and how many tasks share a round.
-/

namespace SelfReference

/-- How a reference to a sentence without evidence is read. -/
inductive Grounding where
  /-- As false by the sentences of its own cycle, exactly by every other. -/
  | closedWorld
  /-- Exactly. -/
  | openWorld
  deriving DecidableEq

namespace Grounding

def name : Grounding → String
  | closedWorld => "closed-world"
  | openWorld => "open"

def ofName? : String → Option Grounding
  | "closed-world" => some closedWorld
  | "open" => some openWorld
  | _ => none

/-- Reads a name or one of its variants, in either case. -/
def parse? (s : String) : Option Grounding :=
  match Text.lowered s with
  | "closed-world" | "closed_world" | "closed" => some closedWorld
  | "open" => some openWorld
  | _ => none

/-- What a text that names no grounding is answered with. -/
def unknownNameMessage (s : String) : String := s!"Invalid grounding: {s}"

@[simp] theorem ofName?_name (g : Grounding) : ofName? g.name = some g := by cases g <;> rfl

end Grounding

structure SolverConfig where
  /-- The bound on rounds, where one is set. -/
  maxIterations : Option Nat := none
  grounding : Grounding := .closedWorld
  /-- Keep every assignment of the run. -/
  recordTrace : Bool := false
  /-- Refuse connectives that break the information order. -/
  verifyOperators : Bool := false
  /-- The tasks that share a round of the parallel solver. -/
  workers : Nat := 4
  deriving DecidableEq

namespace SolverConfig

/-- Exact reading of every reference, connectives checked. -/
def strict : SolverConfig := { grounding := .openWorld, verifyOperators := true }

/-- Every assignment kept, connectives checked. -/
def diagnostic : SolverConfig := { recordTrace := true, verifyOperators := true }

/-- The bound on rounds for a number of sentences.  Where none is set it is one more than any run
takes. -/
def bound (c : SolverConfig) (sentences : Nat) : Nat := c.maxIterations.getD (2 * sentences + 2)

end SolverConfig

end SelfReference
