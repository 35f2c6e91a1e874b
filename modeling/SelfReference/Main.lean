import SelfReference.Program.Session

/-!
# The program

A session on the files of the system: the arguments are read, then settings, and a first settings
file is written if there is to be one; then the files that the arguments name are read, and what the
command printed is printed.
-/

namespace SelfReference

/-- Why the system could not read a file. -/
def FileError.ofSystem : IO.Error → FileError
  | .noFileOrDirectory .. => .notFound
  | .inappropriateType _ code _ =>
    if code = 21 then .isDirectory else .notDirectory
  | e => .other (toString e)

def readText (path : String) : IO (Except FileError String) := do
  try
    match String.fromUTF8? (← IO.FS.readBinFile path) with
    | some text => return .ok text
    | none => return .error .notText
  catch e => return .error (.ofSystem e)

/-- What reading the settings file of the home directory gives, if there is one. -/
def readSettings (path : String) : IO (Option (Except FileError String)) := do
  match ← readText path with
  | .error .notFound | .error .notDirectory => return none
  | found => return some found

/-- Writes a first settings file; a failure is passed over. -/
def writeSettings (directory path : String) (s : Settings) : IO Unit := do
  let .ok text := s.save | return
  try
    IO.FS.createDirAll directory
    IO.FS.writeFile path text
  catch _ => return

/-- The files at some paths, read now. -/
def readAll (paths : List String) : IO Files := do
  let found ← paths.mapM fun path => return (path, ← readText path)
  return fun path => (found.lookup path).getD (.error .notFound)

def readEnvironment : IO Environment := do
  let names := ["PRR_FORMAT", "PRR_CONFIG", "CLICOLOR_FORCE", "NO_COLOR", "CLICOLOR"]
  let values ← names.mapM fun name => return (name, ← IO.getEnv name)
  return .ofLookup (fun name => (values.lookup name).join) (← (← IO.getStdout).isTty)

def runInvocation (env : Environment) (i : Invocation) : IO Ending := do
  let home := (← IO.getEnv "HOME").getD ""
  let directory := Settings.homeDirectory home
  let file := Settings.homeFile home
  let (settings, first) := i.settings (← readAll i.config.toList) (← readSettings file)
  if let some s := first then writeSettings directory file s
  match settings with
  | .error ending => return ending
  | .ok s => return i.run env (← readAll i.command.files) s

end SelfReference

open SelfReference in
def main (arguments : List String) : IO UInt32 := do
  let env ← readEnvironment
  let ending ← match Invocation.parse env arguments with
    | .error e => pure (.ofUsage e)
    | .ok i => runInvocation env i
  IO.print ending.output
  IO.eprint ending.errors
  return ending.exitCode.toUInt32
