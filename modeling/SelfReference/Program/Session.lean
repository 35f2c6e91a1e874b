import SelfReference.Program.Commands

/-!
# Sessions

A whole run of the program: arguments are read, then settings, then a command runs.  First settings
are saved before the command runs, so that it finds them among its files.
-/

namespace SelfReference

structure Ending where
  exitCode : Nat := 0
  output : String := ""
  errors : String := ""
  /-- The usage error that ended the run, if one did. -/
  usage : Option UsageError := none

namespace Ending

/-- The line that reports a failure, under what was being done. -/
def errorLine (doing : List String) (f : Failure) : String :=
  printed ("Error: " ++ Text.joined ": " (doing ++ f.chain))

def ofFailure (doing : List String) (f : Failure) : Ending :=
  { exitCode := 1, errors := errorLine doing f }

/-- A usage error ends a run; what was asked for is output, what went wrong is not. -/
def ofUsage (e : UsageError) : Ending :=
  let text := printed e.message
  { exitCode := e.exitCode, usage := some e
    output := if e.isFault then "" else text
    errors := if e.isFault then text else "" }

def ofRan (ran : Ran) : Ending :=
  match ran.failure with
  | none => { output := ran.output }
  | some f => { ofFailure [] f with output := ran.output }

end Ending

namespace Invocation

/-- The settings that an invocation runs with, and those to be saved in the home directory.  `home`
is what reading the settings file there gave, `none` if there is no such file. -/
def settings (i : Invocation) (files : Files) (home : Option (Except FileError String)) :
    Except Ending Settings × Option Settings :=
  match i.config with
  | some path =>
    ((Settings.ofFile (files path)).mapError (.ofFailure [s!"Failed to load config from {path}"]),
      none)
  | none =>
    let (loaded, first) := Settings.load home
    (loaded.mapError (.ofFailure ["Failed to load config"]), first)

def style (i : Invocation) (env : Environment) (s : Settings) : Style where
  format := i.format.getD s.format
  colored := !i.noColor && s.color && env.forcesColor

def run (i : Invocation) (env : Environment) (files : Files) (s : Settings) : Ending :=
  .ofRan (i.command.run (i.style env s) s.solver files)

end Invocation

/-- Runs the program in a tree of files, `home` being the path of the home directory; the tree is
answered as it is afterwards. -/
def Session.run (env : Environment) (t : FileTree) (home : String) (arguments : List String) :
    Ending × FileTree :=
  match Invocation.parse env arguments with
  | .error e => (.ofUsage e, t)
  | .ok i =>
    let (settings, first) := i.settings t.read (Settings.foundIn t home)
    let t := Settings.keepFirst t home first
    match settings with
    | .error ending => (ending, t)
    | .ok s => (i.run env t.read s, t)

end SelfReference
