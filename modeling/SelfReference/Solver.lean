import SelfReference.Config
import SelfReference.Graph

/-!
# Rounds

A round evaluates every sentence on the assignment of the round before and joins the result with
the value that the sentence had.  Nothing computed in a round is seen by the rest of the round.
Under closed-world grounding a sentence reads members of its own cycle that have no evidence as
false.
-/

namespace SelfReference

structure Solver where
  config : SolverConfig := {}
  connectives : Connectives := .belnap

structure Round where
  next : Assignment
  /-- The names whose value changed, in ascending order. -/
  changed : List String
  deriving DecidableEq

namespace Round

def between (previous next : Assignment) : Round := ⟨next, next.changedSince previous⟩

def isFixed (r : Round) : Bool := r.changed.isEmpty

end Round

namespace Solver

/-- How the sentence of a name reads references: members of its own cycle with the closed view of
the snapshot, all others exactly. -/
def cycleClosed (g : SentenceGraph) (reader : String) (snapshot : Assignment) : Valuation :=
  fun name => if g.shareCycle reader name then snapshot.closed name else snapshot.valueOf name

/-- The reading that a grounding gives to the references of a sentence. -/
def reading (s : Solver) (g : SentenceGraph) (reader : String) (snapshot : Assignment) :
    Valuation :=
  match s.config.grounding with
  | .closedWorld => cycleClosed g reader snapshot
  | .openWorld => snapshot.valueOf

/-- The next value of a sentence: what it was joined with what its formula says. -/
def update (s : Solver) (g : SentenceGraph) (snapshot : Assignment) (name : String)
    (f : Formula) : Truth :=
  (snapshot.valueOf name).join (f.eval s.connectives (s.reading g name snapshot))

/-- One round over the whole graph. -/
def step (s : Solver) (g : SentenceGraph) (previous : Assignment) : Round :=
  .between previous (g.sentences.map (s.update g previous))

/-- Refuses connectives that break the information order where the configuration asks for it. -/
def verify (s : Solver) : Except Error Unit :=
  if s.config.verifyOperators then
    match s.connectives.violations with
    | [] => .ok ()
    | v :: vs => .error (.nonMonotone s!"{v.message} ({vs.length + 1} violation(s) in total)")
  else .ok ()

end Solver

end SelfReference
