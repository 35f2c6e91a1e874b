import SelfReference.Definitions.Load
import SelfReference.Parallel
import SelfReference.Report.Outcomes

/-!
# Solving files

Several files are solved side by side: each by a task of its own, or all loaded first and then
solved with parallel rounds.  Either way the outcomes are in the order of the files.
-/

namespace SelfReference

namespace Solver

def solveFiles (s : Solver) (files : Files) (paths : List String) : List Outcome :=
  let tasks := paths.map fun path =>
    (path, Task.spawn fun _ => (SentenceGraph.load files path).bind s.solve)
  tasks.map fun (path, task) => ⟨path, task.get⟩

/-- Puts results in the places of the graphs that were loaded; the other places keep the error that
kept them from being loaded. -/
def placeResults : List (String × Except Error SentenceGraph) → List (Except Error Solution) →
    List Outcome
  | [], _ => []
  | (path, .error e) :: rest, results => ⟨path, .error e⟩ :: placeResults rest results
  | (path, .ok _) :: rest, r :: results => ⟨path, r⟩ :: placeResults rest results
  | (path, .ok _) :: rest, [] =>
    ⟨path, .error (.worker "missing result")⟩ :: placeResults rest []

/-- Loads every file, then solves the graphs with parallel rounds. -/
def solveFilesParallel (s : Solver) (files : Files) (paths : List String) : List Outcome :=
  let loaded := paths.map fun path => (path, SentenceGraph.load files path)
  placeResults loaded (s.solveAll (loaded.filterMap fun l => l.2.toOption))

end Solver

end SelfReference
