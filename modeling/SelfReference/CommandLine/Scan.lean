import SelfReference.CommandLine.Options

/-!
# Scanning arguments

Arguments are taken one by one.  The value of an option, and files, are checked only when the next
thing is recognised or the arguments end, so that an unknown option is reported before a bad value
in front of it.  After two dashes alone nothing is an option or a command any more.
-/

namespace SelfReference

structure Grammar where
  options : List Opt
  /-- How many files are accepted; no bound where it is `none`. -/
  fileLimit : Option Nat
  /-- The names that end the scan. -/
  commands : List String := []

/-- What has been recognised but not yet checked. -/
inductive Pending where
  | option (o : Opt) (value : Option String)
  | files (names : List String)

structure Scan where
  given : Given := {}
  pending : Option Pending := none
  trailing : Bool := false
  fileCount : Nat := 0

namespace Scan

/-- Whether the next argument is the value of an option. -/
def awaitsValue (s : Scan) : Bool :=
  match s.pending with
  | some (.option _ none) => true
  | _ => false

def settle (s : Scan) : Except UsageError Scan := do
  let given ← match s.pending with
    | none => .ok s.given
    | some (.option o none) => .error (.invalidValue o.long)
    | some (.option o (some value)) => s.given.setValue o value
    | some (.files names) => s.given.addFiles names
  .ok { s with given, pending := none }

/-- Takes an option, with the value attached to it if there is one. -/
def takeOption (o : Opt) (attached : Option String) (s : Scan) : Except UsageError Scan := do
  match o.takesValue, attached with
  | true, some value =>
    let s ← s.settle
    .ok { s with given := ← s.given.setValue o value }
  | true, none =>
    let s ← s.settle
    .ok { s with pending := some (.option o none) }
  | false, none =>
    let s ← s.settle
    .ok { s with given := ← s.given.setFlag o }
  | false, some _ => .error (.surplusValue o.long)

/-- Takes an option by its name after two dashes; an equals sign attaches a value. -/
def takeLong (g : Grammar) (text : List Char) (s : Scan) : Except UsageError Scan :=
  let name := String.ofList (text.takeWhile (· ≠ '='))
  let attached := match text.dropWhile (· ≠ '=') with
    | [] => none
    | _ :: value => some (String.ofList value)
  match g.options.find? fun o => o.long = name with
  | some o => s.takeOption o attached
  | none => .error (.unknownArgument name)

/-- Takes options by their letters after one dash.  What follows the letter of an option that takes
a value is that value, less an equals sign in front. -/
def takeShort (g : Grammar) : List Char → Scan → Except UsageError Scan
  | [], s => .ok s
  | c :: cs, s =>
    match g.options.find? fun o => o.short? = some c with
    | none => .error (.unknownArgument (String.ofList ['-', c]))
    | some o =>
      if o.takesValue then
        s.takeOption o (match cs with
          | [] => none
          | '=' :: value => some (String.ofList value)
          | value => some (String.ofList value))
      else do takeShort g cs (← s.takeOption o none)

def takeFile (g : Grammar) (name : String) (s : Scan) : Except UsageError Scan := do
  if g.fileLimit.any (· ≤ s.fileCount) then
    if g.commands.isEmpty then .error (.unknownArgument name)
    else if s.trailing ∧ name ∈ g.commands then .error (.unknownArgument name)
    else .error (.unknownCommand name)
  else
    match s.pending, g.fileLimit with
    | some (.files names), none =>
      .ok { s with pending := some (.files (names ++ [name])), fileCount := s.fileCount + 1 }
    | _, _ =>
      let s ← s.settle
      .ok { s with pending := some (.files [name]), fileCount := s.fileCount + 1 }

/-- Takes one argument that is neither a command nor two dashes alone. -/
def take (g : Grammar) (argument : String) (s : Scan) : Except UsageError Scan :=
  if s.trailing then s.takeFile g argument
  else
    match argument.toList with
    | '-' :: '-' :: text => s.takeLong g text
    | '-' :: c :: cs => s.takeShort g (c :: cs)
    | _ =>
      match s.pending with
      | some (.option o none) => .ok { s with pending := some (.option o (some argument)) }
      | _ => s.takeFile g argument

/-- Takes arguments up to a command; answers with the command and the arguments after it. -/
def run (g : Grammar) :
    Scan → List String → Except UsageError (Scan × Option (String × List String))
  | s, [] => .ok (s, none)
  | s, a :: as =>
    if !s.trailing && !s.awaitsValue && a ∈ g.commands then .ok (s, some (a, as))
    else if !s.trailing && a = "--" then run g { s with trailing := true } as
    else do run g (← s.take g a) as

end Scan

end SelfReference
