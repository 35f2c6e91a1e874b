import SelfReference.CommandLine.Scan

/-!
# Invocations

The commands of the program with their arguments.  The shared options may stand before or behind
the command; what stands behind it wins, and the environment gives what neither sets.
-/

namespace SelfReference

inductive Command where
  | solve (files : List String) (limits : Limits) (parallel trace : Bool)
  | check (file : String) (normalize : Bool)
  | project (file : String) (limits : Limits)

structure Environment where
  format : Option String := none
  config : Option String := none
  forcesColor : Bool := false

/-- The environment of named values.  Colors can be forced, or refused; otherwise they are wanted on
a screen. -/
def Environment.ofLookup (value? : String → Option String) (terminal : Bool) : Environment where
  format := value? "PRR_FORMAT"
  config := value? "PRR_CONFIG"
  forcesColor :=
    if (value? "CLICOLOR_FORCE").any (· ≠ "0") then true
    else if (value? "NO_COLOR").isSome then false
    else terminal && (value? "CLICOLOR").all (· ≠ "0")

structure Invocation where
  format : Option OutputFormat
  noColor : Bool
  config : Option String
  command : Command

def Command.files : Command → List String
  | solve files _ _ _ => files
  | check file _ | project file _ => [file]

namespace Invocation

/-! ### Grammars -/

def commandNames : List String := ["solve", "check", "project"]

def topGrammar : Grammar :=
  { options := .version :: Opt.shared, fileLimit := some 0, commands := "help" :: commandNames }

def commandGrammar (name : String) : Grammar :=
  if name = "solve" then
    { options := [.maxIterations, .grounding, .parallel, .trace] ++ Opt.shared, fileLimit := none }
  else if name = "check" then
    { options := .normalize :: Opt.shared, fileLimit := some 1 }
  else
    { options := [.maxIterations, .grounding] ++ Opt.shared, fileLimit := some 1 }

/-! ### Reading -/

/-- What the environment sets of what the arguments leave open; checked like an argument. -/
def addEnvironment (env : Environment) (g : Given) : Except UsageError Given := do
  let g ← match g.format, env.format with
    | none, some value => g.setValue .format value
    | _, _ => .ok g
  match g.config, env.config with
  | none, some value => g.setValue .config value
  | _, _ => .ok g

/-- The command of a name with what was set behind it. -/
def commandOf (name : String) (g : Given) : Except UsageError Command :=
  match g.files with
  | [] => .error .missingFile
  | file :: files =>
    if name = "solve" then .ok (.solve (file :: files) g.limits g.parallel g.trace)
    else if name = "check" then .ok (.check file g.normalize)
    else .ok (.project file g.limits)

/-- Help on the program or on one of its commands. -/
def help : List String → UsageError
  | [] => .helpRequested
  | name :: rest =>
    if name ∉ "help" :: commandNames then .unknownCommand name
    else
      match rest with
      | [] => .helpRequested
      | other :: _ => .unknownCommand other

def parse (env : Environment) (arguments : List String) : Except UsageError Invocation := do
  let (top, found) ← Scan.run topGrammar {} arguments
  match found with
  | none =>
    let top ← top.settle
    let given ← addEnvironment env top.given
    if given.format.isNone && !given.noColor && given.config.isNone then .error .noArguments
    else .error .missingCommand
  | some (name, rest) =>
    if name = "help" then .error (help rest)
    else
      let (inner, _) ← Scan.run (commandGrammar name) {} rest
      let inner ← inner.settle
      let _ ← addEnvironment env inner.given
      let command ← commandOf name inner.given
      let top ← top.settle
      let given ← addEnvironment env top.given
      .ok {
        format := inner.given.format <|> given.format
        noColor := inner.given.noColor || given.noColor
        config := inner.given.config <|> given.config
        command }

end Invocation

end SelfReference
