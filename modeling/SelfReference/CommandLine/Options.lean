import SelfReference.CommandLine.Usage
import SelfReference.Settings

/-!
# Options

The options of the program and of its commands, and what a list of arguments has set so far.  An
option can be set once.  Values are checked when they are set: choices must be one of their names,
files must not be empty.
-/

namespace SelfReference

inductive Opt where
  | format
  | noColor
  | config
  | maxIterations
  | grounding
  | parallel
  | trace
  | normalize
  | help
  | version
  deriving DecidableEq

namespace Opt

def long : Opt → String
  | format => "format"
  | noColor => "no-color"
  | config => "config"
  | maxIterations => "max-iterations"
  | grounding => "grounding"
  | parallel => "parallel"
  | trace => "trace"
  | normalize => "normalize"
  | help => "help"
  | version => "version"

def short? : Opt → Option Char
  | format => some 'f'
  | noColor => none
  | config => some 'c'
  | maxIterations => some 'm'
  | grounding => some 'g'
  | parallel => some 'p'
  | trace => some 't'
  | normalize => some 'n'
  | help => some 'h'
  | version => some 'V'

def takesValue : Opt → Bool
  | format | config | maxIterations | grounding => true
  | noColor | parallel | trace | normalize | help | version => false

def shared : List Opt := [format, noColor, config, help]

end Opt

/-! ### What has been set -/

/-- The limits that a command line can put on a solver. -/
structure Limits where
  maxIterations : Option Nat := none
  grounding : Option Grounding := none
  deriving DecidableEq

structure Given where
  format : Option OutputFormat := none
  noColor : Bool := false
  config : Option String := none
  limits : Limits := {}
  parallel : Bool := false
  trace : Bool := false
  normalize : Bool := false
  files : List String := []

/-- A number of at most 64 bits in decimal digits; a plus may stand in front. -/
def readCount? (s : String) : Option Nat :=
  let digits := match s.toList with
    | '+' :: ds => ds
    | ds => ds
  if digits ≠ [] ∧ digits.all (Text.isDigitOf 10) then
    some (Text.numeral 10 digits) |>.filter (· < Text.wordLimit)
  else none

namespace Given

def once (o : Opt) (before : Bool) : Except UsageError Unit :=
  if before then .error (.repeatedOption o.long) else .ok ()

def known {α : Type} (o : Opt) : Option α → Except UsageError α
  | some a => .ok a
  | none => .error (.invalidValue o.long)

/-- Sets an option that takes no value. -/
def setFlag (o : Opt) (g : Given) : Except UsageError Given :=
  match o with
  | .noColor => do once o g.noColor; .ok { g with noColor := true }
  | .parallel => do once o g.parallel; .ok { g with parallel := true }
  | .trace => do once o g.trace; .ok { g with trace := true }
  | .normalize => do once o g.normalize; .ok { g with normalize := true }
  | .help => .error .helpRequested
  | .version => .error .versionRequested
  | .format | .config | .maxIterations | .grounding => .error (.invalidValue o.long)

def setValue (o : Opt) (value : String) (g : Given) : Except UsageError Given :=
  match o with
  | .format => do
    once o g.format.isSome
    .ok { g with format := some (← known o (OutputFormat.ofName? value)) }
  | .config => do
    once o g.config.isSome
    .ok { g with config := some (← known o (if value = "" then none else some value)) }
  | .maxIterations => do
    once o g.limits.maxIterations.isSome
    match readCount? value with
    | some n => .ok { g with limits := { g.limits with maxIterations := some n } }
    | none => .error (.unreadableValue o.long)
  | .grounding => do
    once o g.limits.grounding.isSome
    let grounding ← known o (Grounding.ofName? value)
    .ok { g with limits := { g.limits with grounding := some grounding } }
  | .noColor | .parallel | .trace | .normalize | .help | .version => .error (.surplusValue o.long)

def addFiles (files : List String) (g : Given) : Except UsageError Given :=
  if "" ∈ files then .error (.invalidValue "file") else .ok { g with files := g.files ++ files }

end Given

end SelfReference
