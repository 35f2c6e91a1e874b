import SelfReference.Metrics
import SelfReference.Solver

/-!
# Runs

A run begins with no evidence for any sentence and replaces its assignment round by round until a
round changes nothing or the bound on rounds is reached.  A run can be advanced one round at a
time or driven to its end; both go through the same moves.
-/

namespace SelfReference

/-- Where a run stands. -/
inductive Phase where
  /-- No round has been run. -/
  | initializing
  /-- So many rounds have been run, and the last one changed something. -/
  | iterating (rounds : Nat)
  /-- A round changed nothing, or there is nothing to solve. -/
  | stable
  /-- The bound was reached before a round without change. -/
  | nonConvergent
  deriving DecidableEq

def Phase.isTerminal : Phase → Bool
  | stable | nonConvergent => true
  | initializing | iterating _ => false

structure Run where
  phase : Phase := .initializing
  /-- The assignment after the last round. -/
  current : Assignment
  /-- Every assignment so far, where they are recorded. -/
  trace : List Assignment := []
  metrics : Metrics := {}
  deriving DecidableEq

structure Solution where
  assignment : Assignment
  phase : Phase
  /-- Every assignment of the run from the first, where they were recorded. -/
  trace : List Assignment
  metrics : Metrics
  deriving DecidableEq

namespace Run

/-- The run of a solver on a graph before its first round. -/
def start (s : Solver) (g : SentenceGraph) : Run :=
  { current := g.bottom, trace := if s.config.recordTrace then [g.bottom] else [] }

/-- The bound on the rounds of a run. -/
def bound (s : Solver) (g : SentenceGraph) : Nat := s.config.bound g.size

/-- Ends a run that needs no further round: nothing is to be solved, or the bound is reached. -/
def settle (s : Solver) (g : SentenceGraph) (r : Run) : Run :=
  if r.phase.isTerminal then r
  else if r.phase = .initializing ∧ g.size = 0 then { r with phase := .stable }
  else if bound s g ≤ r.metrics.rounds then { r with phase := .nonConvergent }
  else r

/-- Replaces the assignment by the outcome of a round. -/
def apply (s : Solver) (o : Round) (r : Run) : Run :=
  let metrics := r.metrics.recordRound o.changed
  if o.isFixed then { r with phase := .stable, current := o.next, metrics }
  else
    { phase := .iterating metrics.rounds
      current := o.next
      trace := if s.config.recordTrace then r.trace ++ [o.next] else r.trace
      metrics }

/-- Runs one more round unless the run has ended. -/
def advance (s : Solver) (g : SentenceGraph) (r : Run) : Run :=
  let r := r.settle s g
  if r.phase.isTerminal then r else r.apply s (s.step g r.current)

theorem rounds_lt_bound_of_settle {s : Solver} {g : SentenceGraph} {r : Run}
    (h : (r.settle s g).phase.isTerminal = false) : r.metrics.rounds < bound s g := by
  unfold settle at h
  split at h
  · simp_all
  split at h
  · simp [Phase.isTerminal] at h
  split at h
  · simp [Phase.isTerminal] at h
  · omega

theorem metrics_settle (s : Solver) (g : SentenceGraph) (r : Run) :
    (r.settle s g).metrics = r.metrics := by
  unfold settle
  split
  · rfl
  split
  · rfl
  split <;> rfl

theorem rounds_apply (s : Solver) (o : Round) (r : Run) :
    (r.apply s o).metrics.rounds = r.metrics.rounds + 1 := by
  unfold apply
  split <;> rfl

/-- Runs rounds until the run has ended. -/
def drive (s : Solver) (g : SentenceGraph) (r : Run) : Run :=
  if _ : (r.settle s g).phase.isTerminal then r.settle s g
  else drive s g ((r.settle s g).apply s (s.step g (r.settle s g).current))
termination_by bound s g - r.metrics.rounds
decreasing_by
  have hlt := rounds_lt_bound_of_settle (s := s) (g := g) (r := r) (Bool.eq_false_iff.2 ‹_›)
  rw [rounds_apply, metrics_settle]
  omega

def result (s : Solver) (g : SentenceGraph) (r : Run) : Except Error Solution :=
  match r.phase with
  | .stable => .ok ⟨r.current, r.phase, r.trace, r.metrics.recordFinal r.current⟩
  | _ => .error (.nonConvergence (bound s g) r.current)

def finish (s : Solver) (g : SentenceGraph) (r : Run) : Except Error Solution :=
  (r.drive s g).result s g

end Run

namespace Solver

def solve (s : Solver) (g : SentenceGraph) : Except Error Solution := do
  s.verify
  (Run.start s g).finish s g

end Solver

namespace Solution

def rounds (s : Solution) : Nat := s.metrics.rounds

def changingRounds (s : Solution) : Nat := s.metrics.changingRounds

end Solution

end SelfReference
