import SelfReference.Run
import SelfReference.Text.Numeral

/-!
# Parallel rounds

A round shared by several tasks.  The sentences are cut into contiguous pieces, every piece is
evaluated by a task of its own on the same assignment, and the values are put back in order.  Only
the number of tasks can make such a round fail.
-/

namespace SelfReference

/-- Cuts a list into pieces of `k` elements, the last one possibly shorter; at least one element
to a piece. -/
def pieces {α : Type} (k : Nat) : List α → List (List α)
  | [] => []
  | x :: xs => (x :: xs.take (k - 1)) :: pieces k (xs.drop (k - 1))
termination_by l => l.length
decreasing_by simp only [List.length_drop, List.length_cons]; omega

theorem flatten_pieces {α : Type} (k : Nat) (l : List α) : (pieces k l).flatten = l := by
  fun_induction pieces k l with
  | case1 => rfl
  | case2 x xs ih => simp [ih]

namespace Solver

def workers (s : Solver) : Nat := max s.config.workers 1

def pieceSize (s : Solver) (g : SentenceGraph) : Nat :=
  max ((g.size + s.workers - 1) / s.workers) 1

/-- The least number of tasks that cannot be kept track of: each takes eight bytes, and all
together at most half of what 64 bits address. -/
def taskLimit : Nat := Text.wordLimit / 16

/-- One round, every piece of it evaluated by a task. -/
def sharedRound (s : Solver) (g : SentenceGraph) (previous : Assignment) : Round :=
  let tasks := (pieces (s.pieceSize g) g.sentences.entries).map fun piece =>
    Task.spawn fun _ => piece.map fun e => s.update g previous e.1 e.2
  .between previous (NameMap.ofList (g.names.zip (tasks.flatMap Task.get)))

/-- One round, shared by the tasks unless they are too many. -/
def parallelStep (s : Solver) (g : SentenceGraph) (previous : Assignment) : Except Error Round :=
  if taskLimit ≤ s.workers then .error .tooManyTasks else .ok (s.sharedRound g previous)

end Solver

/-- Runs shared rounds until the run has ended or a round fails. -/
def Run.driveParallel (s : Solver) (g : SentenceGraph) (r : Run) : Except Error Run :=
  if _ : (r.settle s g).phase.isTerminal then .ok (r.settle s g)
  else
    match s.parallelStep g (r.settle s g).current with
    | .error e => .error e
    | .ok o => driveParallel s g ((r.settle s g).apply s o)
termination_by Run.bound s g - r.metrics.rounds
decreasing_by
  have hlt := Run.rounds_lt_bound_of_settle (s := s) (g := g) (r := r) (Bool.eq_false_iff.2 ‹_›)
  rw [Run.rounds_apply, Run.metrics_settle]
  omega

namespace Solver

def solveParallel (s : Solver) (g : SentenceGraph) : Except Error Solution := do
  s.verify
  (← (Run.start s g).driveParallel s g).result s g

/-- What becomes of a task that solves a graph: that its rounds have too many tasks makes the task
itself fail. -/
def taskResult : Except Error Solution → Except Error Solution
  | .error .tooManyTasks => .error (.worker s!"Solve task failed: {Error.tooManyTasks.message}")
  | result => result

/-- Solves several graphs, each in a task of its own; the results are in the order of the
graphs. -/
def solveAll (s : Solver) (gs : List SentenceGraph) : List (Except Error Solution) :=
  (gs.map fun g => Task.spawn fun _ => taskResult (s.solveParallel g)).map Task.get

end Solver

end SelfReference
