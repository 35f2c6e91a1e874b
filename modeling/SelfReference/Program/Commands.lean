import SelfReference.CommandLine.Invocation
import SelfReference.Program.SettingsFile
import SelfReference.Program.Solving
import SelfReference.Report.Structure

/-!
# Commands

What each command prints, and how it fails.  A command that fails may have printed before.
-/

namespace SelfReference

structure Style where
  format : OutputFormat := .table
  colored : Bool := false

/-- What a command printed, and why it failed if it did. -/
structure Ran where
  output : String := ""
  failure : Option Failure := none

def printed (text : String) : String := text ++ "\n"

def SolverConfig.limited (c : SolverConfig) (l : Limits) : SolverConfig :=
  { c with
    maxIterations := l.maxIterations <|> c.maxIterations
    grounding := l.grounding.getD c.grounding }

namespace Command

def runSolve (style : Style) (config : SolverConfig) (parallel : Bool) (files : Files)
    (paths : List String) : Ran :=
  let s : Solver := { config }
  let os := if parallel then s.solveFilesParallel files paths else s.solveFiles files paths
  let failed := (os.filter fun o => !o.isOk).length
  { output := printed (Report.outcomes style.format style.colored os)
    failure := if failed = 0 then none else some (.someFiles failed os.length) }

/-- Describes the structure of a file, and repeats its definitions in their normal form. -/
def runCheck (style : Style) (normalize : Bool) (files : Files) (path : String) : Ran :=
  match SentenceGraph.load files path with
  | .error e => { failure := some (.unsolved e) }
  | .ok g =>
    { output :=
        printed (Report.overview style.format style.colored (.ofGraph path g)) ++
          if normalize then printed (DefinitionFile.ofGraph g).tomlText else "" }

def runProject (style : Style) (config : SolverConfig) (files : Files) (path : String) : Ran :=
  match (SentenceGraph.load files path).bind ({ config } : Solver).solve with
  | .error e => { failure := some (.unsolved e) }
  | .ok s =>
    { output := printed (Report.intervals style.format style.colored s.assignment.project) }

def run (style : Style) (config : SolverConfig) (files : Files) : Command → Ran
  | solve paths limits parallel trace =>
    let config := config.limited limits
    runSolve style { config with recordTrace := trace || config.recordTrace } parallel files paths
  | check path normalize => runCheck style normalize files path
  | project path limits => runProject style (config.limited limits) files path

end Command

end SelfReference
