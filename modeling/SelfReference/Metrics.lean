import SelfReference.Assignment

/-!
# Metrics of a run

How many rounds a run took, how often each sentence changed, and how the final values are
distributed.
-/

namespace SelfReference

structure Metrics where
  /-- Rounds evaluated, the last one without change included. -/
  rounds : Nat := 0
  /-- Rounds that changed some value. -/
  changingRounds : Nat := 0
  /-- The changes of each sentence that changed. -/
  changes : NameMap Nat := .empty
  /-- How many sentences hold each value in the end, by the name of the value. -/
  finalValues : NameMap Nat := .empty
  /-- The time taken, in microseconds. -/
  elapsedMicros : Nat := 0
  deriving DecidableEq

namespace Metrics

def countChange (changes : NameMap Nat) (name : String) : NameMap Nat :=
  changes.insert name ((changes.get? name).getD 0 + 1)

/-- Counts a round that changed the listed sentences. -/
def recordRound (m : Metrics) (changed : List String) : Metrics :=
  { m with
    rounds := m.rounds + 1
    changingRounds := m.changingRounds + if changed.isEmpty then 0 else 1
    changes := changed.foldl countChange m.changes }

/-- Counts the values of a final assignment; a value that no sentence holds is left out. -/
def recordFinal (m : Metrics) (a : Assignment) : Metrics :=
  { m with
    finalValues := NameMap.ofList
      ((Truth.all.map fun v => (v.name, Assignment.count a v)).filter fun e => 0 < e.2) }

def totalChanges (m : Metrics) : Nat := m.changes.values.foldl (· + ·) 0

def maxChanges (m : Metrics) : Nat := m.changes.values.foldl max 0

def summary (m : Metrics) : String :=
  "\n".intercalate <|
    ["Solve Metrics Summary",
     "=====================",
     s!"Rounds: {m.rounds} ({m.changingRounds} changing)",
     s!"Value changes: {m.totalChanges}",
     s!"Elapsed: {m.elapsedMicros}µs"] ++
    if m.finalValues.isEmpty then []
    else ["", "Final values:"] ++ m.finalValues.entries.map fun e => s!"  {e.1}: {e.2}"

end Metrics

end SelfReference
