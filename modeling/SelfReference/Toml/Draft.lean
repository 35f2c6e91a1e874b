import SelfReference.Toml.Value

/-!
# Tables under construction

A document is a list of statements: headers that open a table, and keys with values for the table
opened last.  A draft is what the statements so far have built.  It remembers how each table came
about, because that decides what may still be put into it; `Draft.finish` forgets it.
-/

namespace SelfReference.Toml

/-- How a table came about. -/
inductive Origin where
  /-- A header opened it. -/
  | opened
  /-- A header passed through it on the way to another table. -/
  | passed
  /-- A dotted key made it. -/
  | dotted
  deriving DecidableEq

/-- What stands at a key of a table under construction. -/
inductive Draft where
  | value (v : Toml)
  | table (origin : Origin) (members : List (String × Draft))
  /-- An array of tables: the finished ones, the latest first, and the members of the last one. -/
  | tables (finished : List Toml) (members : List (String × Draft))

namespace Draft

abbrev Members := List (String × Draft)

mutual

def finish : Draft → Toml
  | value v => v
  | table _ members => .table (finishMembers members)
  | tables finished members => .arr (finished.reverse ++ [.table (finishMembers members)])

def finishMembers : List (String × Draft) → List (String × Toml)
  | [] => []
  | (k, d) :: ms => (k, finish d) :: finishMembers ms

end

/-- Changes what stands at a key; a key that is missing is put at the end. -/
def alter (key : String) (f : Option Draft → Option Draft) : Members → Option Members
  | [] => (f none).map fun d => [(key, d)]
  | (k, d) :: ms =>
    if k = key then (f (some d)).map fun d => (k, d) :: ms
    else (alter key f ms).map ((k, d) :: ·)

/-! ### Headers -/

/-- Changes the table at a path.  Tables on the way that are missing arise; of an array of tables
the last one is meant. -/
def within (f : Members → Option Members) : List String → Members → Option Members
  | [], ms => f ms
  | k :: ks, ms => alter k (fun
      | none => (within f ks []).map (table .passed)
      | some (value _) => none
      | some (table o ms) => (within f ks ms).map (table o)
      | some (tables vs ms) => (within f ks ms).map (tables vs)) ms

/-- Opens the table at a key, which must be missing or passed through only. -/
def openTable (key : String) : Members → Option Members :=
  alter key fun
    | none => some (table .opened [])
    | some (table .passed ms) => some (table .opened ms)
    | some _ => none

/-- Opens one more table of the array of tables at a key. -/
def openElement (key : String) : Members → Option Members :=
  alter key fun
    | none => some (tables [] [])
    | some (tables vs ms) => some (tables (.table (finishMembers ms) :: vs) [])
    | some _ => none

/-! ### Keys with values -/

/-- Gives a dotted key its value.  A dotted key ends in the table that holds the statement, or in
a table that a dotted key made, which `extensible` says of the table at hand; on the way it passes
through no table that was opened. -/
def define (v : Toml) : List String → Bool → Members → Option Members
  | [], _, _ => none
  | [k], extensible, ms =>
    if extensible then alter k (fun
      | none => some (value v)
      | some _ => none) ms
    else none
  | k :: k' :: ks, _, ms => alter k (fun
      | none => (define v (k' :: ks) true []).map (table .dotted)
      | some (table .dotted ms) => (define v (k' :: ks) true ms).map (table .dotted)
      | some (table .passed ms) => (define v (k' :: ks) false ms).map (table .passed)
      | some (tables vs ms) => (define v (k' :: ks) false ms).map (tables vs)
      | some (table .opened _) => none
      | some (value _) => none) ms

/-- The table of keys with values, as it is written in one line. -/
def inlineTable? (pairs : List (List String × Toml)) : Option Toml :=
  (pairs.foldlM (fun ms (path, v) => define v path true ms) []).map fun ms =>
    .table (finishMembers ms)

end Draft

/-! ### Documents -/

inductive Statement where
  /-- Opens the table at a path. -/
  | table (path : List String)
  /-- Opens one more table of the array of tables at a path. -/
  | element (path : List String)
  /-- Gives a dotted key of the open table its value. -/
  | pair (path : List String) (v : Toml)

structure Document where
  here : List String := []
  members : Draft.Members := []

namespace Document

def add (d : Document) : Statement → Option Document
  | .table path => do
    let key ← path.getLast?
    let members ← Draft.within (Draft.openTable key) path.dropLast d.members
    some ⟨path, members⟩
  | .element path => do
    let key ← path.getLast?
    let members ← Draft.within (Draft.openElement key) path.dropLast d.members
    some ⟨path, members⟩
  | .pair path v => do
    let members ← Draft.within (Draft.define v path true) d.here d.members
    some { d with members }

def ofStatements? (statements : List Statement) : Option (List (String × Toml)) :=
  (statements.foldlM add {}).map fun d => Draft.finishMembers d.members

end Document

end SelfReference.Toml
