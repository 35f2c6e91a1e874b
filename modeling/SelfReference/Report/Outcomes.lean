import SelfReference.Report.Intervals
import SelfReference.Run

/-!
# Reports of solved files

What became of each file that was to be solved: a stable assignment with its intervals and, where
it was recorded, the way to it; or the error that stopped it, with the last assignment if there
was one.
-/

namespace SelfReference

structure Outcome where
  file : String
  result : Except Error Solution

def Outcome.isOk (o : Outcome) : Bool := o.result.isOk

def Assignment.toJson (a : Assignment) : Json :=
  .obj (a.entries.map fun e => (e.1, .str e.2.name))

namespace Report

/-! ### Tables -/

def valueTable (colored : Bool) (a : Assignment) : String :=
  if a.isEmpty then noSentences colored
  else table (["Sentence", "Value", "Interval"] :: a.entries.map fun (name, v) =>
    [name, v.name, v.interval.display 1])

/-- Assignments as the rows of a table, numbered from zero. -/
def traceTable : List Assignment → String
  | [] => ""
  | a :: as => table (("Round" :: a.names) :: (a :: as).zipIdx.map fun (b, round) =>
      Text.decimalText round :: b.values.map Truth.name)

def solutionText (colored : Bool) (file : String) (s : Solution) : String :=
  let head := s!"{file}: stable after {s.rounds} round(s), {s.changingRounds} changing, " ++
    s!"at most {s.metrics.maxChanges} change(s) per sentence"
  Text.lines ([success colored head, valueTable colored s.assignment] ++
    if s.trace.isEmpty then []
    else [information colored "Trace:", traceTable s.trace, s.metrics.summary])

/-- The paragraph of a file that was not solved. -/
def errorText (colored : Bool) (file : String) (e : Error) : String :=
  Text.lines (failure colored s!"{file}: {e.message}" ::
    match e.last? with
    | none => []
    | some last =>
      [warning colored "Last assignment before giving up:", valueTable colored last])

def outcomeText (colored : Bool) (o : Outcome) : String :=
  match o.result with
  | .ok s => solutionText colored o.file s
  | .error e => errorText colored o.file e

/-! ### JSON -/

/-- The time taken, as far as 64 bits hold it. -/
def shownMicros (m : Metrics) : Nat := m.elapsedMicros % Text.wordLimit

/-- An outcome as a JSON object, its members in the order of their names. -/
def outcomeJson (o : Outcome) : Json :=
  match o.result with
  | .ok s => .obj ([
      ("changing_rounds", .ofNat s.changingRounds),
      ("elapsed_micros", .ofNat (shownMicros s.metrics)),
      ("file", .str o.file),
      ("intervals", s.assignment.project.toJson),
      ("max_changes", .ofNat s.metrics.maxChanges),
      ("rounds", .ofNat s.rounds),
      ("status", .str "stable")] ++
      (if s.trace.isEmpty then []
        else [("trace", .arr (s.trace.map Assignment.toJson))]) ++
      [("values", s.assignment.toJson)])
  | .error e => .obj ([("error", .str e.message), ("file", .str o.file)] ++
      (e.last?.toList.map fun last => ("last", last.toJson)) ++
      [("status", .str (if e.isConstruction then "invalid" else "error"))])

/-! ### Lines -/

/-- The values of a solved file on lines of their own; nothing for any other. -/
def quietLines (named : Bool) (o : Outcome) : List String :=
  match o.result with
  | .error _ => []
  | .ok s => s.assignment.entries.map fun (name, v) =>
      if named then s!"{o.file}:{name}={v}" else s!"{name}={v}"

/-- The outcomes in a format.  Where there is more than one, lines begin with the file. -/
def outcomes (format : OutputFormat) (colored : Bool) (os : List Outcome) : String :=
  match format with
  | .table => Text.joined "\n\n" (os.map (outcomeText colored))
  | .json => (Json.arr (os.map outcomeJson)).pretty
  | .quiet => Text.lines (os.flatMap (quietLines (1 < os.length)))

end Report

end SelfReference
