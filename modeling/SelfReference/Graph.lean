import SelfReference.Error
import SelfReference.Graph.Search

/-!
# Sentence graphs

Named formulas whose references all resolve to names of the same graph.  A graph answers what a
sentence depends on, what depends on it, and which sentences lie on a common cycle of
dependencies; the cycles are the strongly connected components that hold one.
-/

namespace SelfReference

abbrev Sentences := NameMap Formula

namespace Sentences

/-! ### Cycles -/

/-- The position of a name in ascending order. -/
def position? (s : Sentences) (name : String) : Option (Fin s.size) :=
  s.entries.findFinIdx? fun e => e.1 = name

/-- The positions that each position refers to, in ascending order of names. -/
def targets (s : Sentences) : Adjacency s.size :=
  Vector.ofFn fun i => (s.entries.get i).2.references.filterMap s.position?

/-- Numbers the components that hold a cycle and marks every name on one with its number. -/
def cycleMarks (s : Sentences) : NameMap Nat :=
  let targets := s.targets
  let cyclic := (targets.components.filter targets.holdsCycle).zipIdx
  NameMap.ofList (cyclic.flatMap fun (members, id) =>
    members.map fun i => ((s.entries.get i).1, id))

end Sentences

/-- Sentences that refer to sentences of the same graph only. -/
structure SentenceGraph where
  sentences : Sentences
  /-- Every name is more than blank characters. -/
  named : ∀ n ∈ sentences.names, Text.isBlank n = false
  /-- Every reference is defined. -/
  resolved : ∀ n f, sentences.get? n = some f → ∀ r ∈ f.references, r ∈ sentences.names
  /-- The number of the cycle of each name on one. -/
  marks : NameMap Nat := sentences.cycleMarks
  marks_eq : marks = sentences.cycleMarks := by rfl

namespace SentenceGraph

theorem ext_sentences {g h : SentenceGraph} (hs : g.sentences = h.sentences) : g = h := by
  cases g with | mk s hn hr m hm =>
  cases h with | mk s' hn' hr' m' hm' =>
  cases hs
  cases hm
  cases hm'
  rfl

/-! ### Construction -/

/-- The first definition, in the given order, whose name is blank or was used before. -/
def nameFault? (seen : List String) : List (String × Formula) → Option Error
  | [] => none
  | (n, _) :: ds =>
    if Text.isBlank n then some (.malformedFormula n .emptyName)
    else if n ∈ seen then some (.duplicateSentence n)
    else nameFault? (n :: seen) ds

def referenceFault? (s : Sentences) (sentence reference : String) : Option Error :=
  if Text.isBlank reference then some (.malformedFormula sentence .emptyReference)
  else if s.contains reference then none
  else some (.undefinedReference sentence reference)

/-- The first faulty reference, by sentence, then by reference. -/
def resolutionFault? (s : Sentences) : Option Error :=
  s.entries.findSome? fun e => e.2.references.findSome? (referenceFault? s e.1)

theorem not_isBlank_of_nameFault? {seen : List String} {ds : List (String × Formula)}
    (h : nameFault? seen ds = none) : ∀ d ∈ ds, Text.isBlank d.1 = false := by
  induction ds generalizing seen with
  | nil => simp
  | cons d ds ih =>
    obtain ⟨n, f⟩ := d
    unfold nameFault? at h
    split at h
    · contradiction
    rename_i hb
    split at h
    · contradiction
    intro d hd
    rcases List.mem_cons.1 hd with rfl | hd
    · simpa using hb
    · exact ih h d hd

theorem mem_names_of_referenceFault? {s : Sentences} {n r : String}
    (h : referenceFault? s n r = none) : r ∈ s.names := by
  unfold referenceFault? at h
  split at h
  · contradiction
  split at h
  · rename_i hc
    exact s.contains_iff_mem.1 hc
  · contradiction

/-- Builds the graph of a list of definitions.  A fault of a name is reported before any fault of
a reference. -/
def ofDefinitions (ds : List (String × Formula)) : Except Error SentenceGraph :=
  match hn : nameFault? [] ds with
  | some e => .error e
  | none =>
    match hr : resolutionFault? (NameMap.ofList ds) with
    | some e => .error e
    | none => .ok {
        sentences := NameMap.ofList ds
        named := fun n hmem => by
          obtain ⟨f, hf⟩ := (NameMap.mem_names_iff _).1 hmem
          rw [NameMap.get?_ofList] at hf
          have : (n, f) ∈ ds := by
            obtain ⟨l₁, l₂, hl, -⟩ := List.lookup_eq_some_iff.1 hf
            exact List.mem_reverse.1 (by rw [hl]; simp)
          exact not_isBlank_of_nameFault? hn _ this
        resolved := fun n f hf r hmem => by
          have he := (NameMap.get?_eq_some_iff _).1 hf
          have := List.findSome?_eq_none_iff.1 hr _ he
          exact mem_names_of_referenceFault? (List.findSome?_eq_none_iff.1 this r hmem) }

/-! ### Queries -/

def size (g : SentenceGraph) : Nat := g.sentences.size

/-- The names in ascending order. -/
def names (g : SentenceGraph) : List String := g.sentences.names

def formula? (g : SentenceGraph) (name : String) : Option Formula := g.sentences.get? name

/-- The names that the sentence of a name refers to, in ascending order. -/
def dependencies? (g : SentenceGraph) (name : String) : Option (List String) :=
  (g.formula? name).map Formula.references

/-- The names of the sentences that refer to a name, in ascending order. -/
def dependents (g : SentenceGraph) (name : String) : List String :=
  (g.sentences.entries.filter fun e => name ∈ e.2.references).map (·.1)

def isSelfReferential (g : SentenceGraph) (name : String) : Bool :=
  match g.dependencies? name with
  | some ds => name ∈ ds
  | none => false

/-- The number of the cycle that a name lies on. -/
def cycleOf? (g : SentenceGraph) (name : String) : Option Nat := g.marks.get? name

def isCyclic (g : SentenceGraph) (name : String) : Bool := (g.cycleOf? name).isSome

/-- Whether two names lie on a common cycle of dependencies. -/
def shareCycle (g : SentenceGraph) (a b : String) : Bool :=
  match g.cycleOf? a, g.cycleOf? b with
  | some i, some j => i = j
  | _, _ => false

/-- Whether there is no cycle of dependencies. -/
def isAcyclic (g : SentenceGraph) : Bool := g.marks.isEmpty

/-- The names of each cycle in ascending order, the cycles by their first names. -/
def cycles (g : SentenceGraph) : List (List String) :=
  g.marks.values.eraseDups.map fun id =>
    (g.marks.entries.filter fun e => e.2 = id).map (·.1)

/-- Every name of the graph without evidence. -/
def bottom (g : SentenceGraph) : Assignment := Assignment.bottom g.names

/-- A bound on the rounds until a round without change: every round before the last one raises
some value, and no value rises more often than the height of the order. -/
def convergenceBound (g : SentenceGraph) : Nat := Truth.height * g.size + 1

end SentenceGraph

end SelfReference
