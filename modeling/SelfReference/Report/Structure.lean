import SelfReference.Graph
import SelfReference.Json.Printer
import SelfReference.Report.Paint
import SelfReference.Report.Table
import SelfReference.Settings

/-!
# Reports of structure

What a definition file holds before anything is solved: how many sentences and formula nodes,
which sentences refer to themselves, which lie on cycles, and how many rounds a run can take.
-/

namespace SelfReference

structure Overview where
  file : String
  sentences : Nat
  selfReferential : List String
  cycles : List (List String)
  acyclic : Bool
  formulaNodes : Nat
  convergenceBound : Nat

namespace Overview

def ofGraph (file : String) (g : SentenceGraph) : Overview where
  file := file
  sentences := g.size
  selfReferential := g.names.filter g.isSelfReferential
  cycles := g.cycles
  acyclic := g.isAcyclic
  formulaNodes := g.sentences.values.foldl (fun nodes f => nodes + f.size) 0
  convergenceBound := g.convergenceBound

def toJson (o : Overview) : Json := .obj [
  ("file", .str o.file),
  ("sentences", .ofNat o.sentences),
  ("self_referential", .arr (o.selfReferential.map .str)),
  ("cycles", .arr (o.cycles.map fun c => .arr (c.map .str))),
  ("acyclic", .bool o.acyclic),
  ("formula_nodes", .ofNat o.formulaNodes),
  ("convergence_bound", .ofNat o.convergenceBound)]

def braced (names : List String) : String :=
  String.ofList ('{' :: ((Text.joined ", " names).toList ++ ['}']))

/-- Parts with a separator between them, or that there are none. -/
def orNone (separator : String) (parts : List String) : String :=
  if parts.isEmpty then "none" else Text.joined separator parts

def toTable (o : Overview) : String := Report.table [
  ["Property", "Value"],
  ["Sentences", Text.decimalText o.sentences],
  ["Self-referential", orNone ", " o.selfReferential],
  ["Cycles", orNone " " (o.cycles.map braced)],
  ["Acyclic", if o.acyclic then "yes" else "no"],
  ["Formula nodes", Text.decimalText o.formulaNodes],
  ["Convergence bound", s!"{o.convergenceBound} rounds"]]

end Overview

def Report.overview (format : OutputFormat) (colored : Bool) (o : Overview) : String :=
  match format with
  | .table => Text.lines [success colored s!"{o.file}: valid", o.toTable]
  | .json => o.toJson.pretty
  | .quiet => Text.decimalText o.sentences

end SelfReference
