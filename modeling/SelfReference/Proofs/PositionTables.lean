import SelfReference.Proofs.Cycles

/-!
# Tables of positions

A graph can be kept as tables over the positions of its sentences in ascending order of names: for
each position the sentence there, the positions that it refers to and the number of its cycle.  The
queries are then lookups by position and binary searches among positions.  No lookup leaves the
tables, and the answers are those of the queries by name, which tell what the definitions say.
-/

namespace SelfReference

/-! ### Binary search -/

/-- Whether a number is in an ascending list, by halving the list. -/
def binarySearch (x : Nat) (l : List Nat) : Bool :=
  match h : l.drop (l.length / 2) with
  | [] => false
  | y :: right =>
    if x = y then true
    else if x < y then binarySearch x (l.take (l.length / 2))
    else binarySearch x right
termination_by l.length
decreasing_by
  all_goals
    have hlength := congrArg List.length h
    simp only [List.length_drop, List.length_cons] at hlength
    first | (rw [List.length_take]; omega) | omega

/-- A binary search in an ascending list finds what is there. -/
theorem binarySearch_eq_true_iff {x : Nat} {l : List Nat} (hl : l.Pairwise (· < ·)) :
    binarySearch x l = true ↔ x ∈ l := by
  have hparts {y : Nat} {right l : List Nat} (hl : l.Pairwise (· < ·))
      (h : l.drop (l.length / 2) = y :: right) :
      (x ∈ l ↔ x ∈ l.take (l.length / 2) ∨ x = y ∨ x ∈ right) ∧
        (∀ z ∈ l.take (l.length / 2), z < y) ∧ ∀ z ∈ right, y < z := by
    have hsplit := List.take_append_drop (l.length / 2) l
    rw [h] at hsplit
    rw [← hsplit, List.pairwise_append, List.pairwise_cons] at hl
    refine ⟨?_, fun z hz => hl.2.2 z hz y (List.mem_cons_self ..), hl.2.1.1⟩
    conv => lhs; rw [← hsplit]
    rw [List.mem_append, List.mem_cons]
  fun_induction binarySearch x l with
  | case1 l h =>
    have hlength := congrArg List.length h
    simp only [List.length_drop, List.length_nil] at hlength
    have hnil : l = [] := List.eq_nil_of_length_eq_zero (by omega)
    simp [hnil]
  | case2 l right h =>
    have hmem := (hparts hl h).1
    simp [hmem]
  | case3 l y right h hne hlt ih =>
    obtain ⟨hmem, -, hright⟩ := hparts hl h
    have hnot : x ∉ right := fun hx => absurd (hright x hx) (by omega)
    have hrest := ih (hl.sublist (List.take_sublist ..))
    simpa [hmem, hne, hnot] using hrest
  | case4 l y right h hne hlt ih =>
    obtain ⟨hmem, hleft, -⟩ := hparts hl h
    have hnot : x ∉ l.take (l.length / 2) := fun hx => absurd (hleft x hx) (by omega)
    have hsub : right.Sublist l := by
      have hdrop := List.drop_sublist (l.length / 2) l
      rw [h] at hdrop
      exact (List.sublist_cons_self ..).trans hdrop
    have hrest := ih (hl.sublist hsub)
    simpa [hmem, hne, hnot] using hrest

/-! ### Lookups by position -/

/-- What is known of the sentence at each position.  A query answers `none` where it looks up a
position that a table does not have. -/
structure PositionTables where
  sentences : List (String × Formula)
  /-- The positions referred to, in ascending order. -/
  edges : List (List Nat)
  /-- The number of the cycle. -/
  cycle : List (Option Nat)

namespace PositionTables

variable (t : PositionTables)

def index? (name : String) : Option Nat := t.sentences.findIdx? fun e => e.1 = name

def nameAt? (i : Nat) : Option String := t.sentences[i]?.map (·.1)

def formula? (name : String) : Option (Option Formula) :=
  match t.index? name with
  | none => some none
  | some i => t.sentences[i]?.map fun e => some e.2

def dependencies? (name : String) : Option (Option (List String)) :=
  match t.index? name with
  | none => some none
  | some i => (t.edges[i]?.bind fun targets => targets.mapM t.nameAt?).map some

def dependents? (name : String) : Option (List String) :=
  match t.index? name with
  | none => some []
  | some target =>
    (t.edges.zipIdx.filter fun e => binarySearch target e.1).mapM fun e => t.nameAt? e.2

def isSelfReferential? (name : String) : Option Bool :=
  match t.index? name with
  | none => some false
  | some i => t.edges[i]?.map (binarySearch i)

def cycleOf? (name : String) : Option (Option Nat) :=
  match t.index? name with
  | none => some none
  | some i => t.cycle[i]?

end PositionTables

namespace Sentences

variable (s : Sentences)

/-- The formula at a position. -/
def formulaAt (i : Fin s.size) : Formula := (s.entries.get i).2

theorem entries_eq_map :
    s.entries = (List.finRange s.size).map fun i => (s.nameAt i, s.formulaAt i) :=
  (List.map_get_finRange s.entries).symm

theorem get?_eq_formulaAt (i : Fin s.size) : s.get? (s.nameAt i) = some (s.formulaAt i) :=
  s.get?_nameAt i

theorem getElem?_entries (i : Fin s.size) :
    s.entries[(i : Nat)]? = some (s.nameAt i, s.formulaAt i) :=
  List.getElem?_eq_getElem i.isLt

/-- A position is found among the targets of another one exactly if the sentence there refers to its
name. -/
theorem binarySearch_targets (i j : Fin s.size) :
    binarySearch j ((s.targets.get i).map Fin.val) = true ↔
      s.nameAt j ∈ (s.formulaAt i).references := by
  have hascending : ((s.targets.get i).map Fin.val).Pairwise (· < ·) :=
    List.pairwise_map.2 (s.targets_ascending i)
  have hmem : (j : Nat) ∈ (s.targets.get i).map Fin.val ↔ j ∈ s.targets.get i :=
    List.mem_map_of_injective fun _ _ => Fin.ext
  have hedge := s.edge_targets_iff (i := i) (j := j)
  rw [Adjacency.Edge, Refers, s.get?_eq_formulaAt] at hedge
  rw [binarySearch_eq_true_iff hascending, hmem, hedge, mem_references_iff]
  simp

end Sentences

namespace SentenceGraph

/-- The tables of a graph. -/
def tables (g : SentenceGraph) : PositionTables where
  sentences := g.sentences.entries
  edges := (List.finRange g.sentences.size).map fun i => (g.sentences.targets.get i).map Fin.val
  cycle := (List.finRange g.sentences.size).map fun i => g.cycleOf? (g.sentences.nameAt i)

variable (g : SentenceGraph)

theorem index?_tables (a : String) :
    g.tables.index? a = (g.sentences.position? a).map Fin.val :=
  List.findIdx?_eq_map_findFinIdx?_val

theorem nameAt?_tables (i : Fin g.sentences.size) :
    g.tables.nameAt? i = some (g.sentences.nameAt i) := by
  rw [PositionTables.nameAt?, tables, g.sentences.getElem?_entries]
  rfl

theorem mapM_nameAt?_tables (l : List (Fin g.sentences.size)) :
    l.mapM (fun i : Fin g.sentences.size => g.tables.nameAt? i.val) =
      some (l.map g.sentences.nameAt) := by
  simp only [nameAt?_tables]
  exact List.mapM_pure

theorem getElem?_edges (i : Fin g.sentences.size) :
    g.tables.edges[(i : Nat)]? = some ((g.sentences.targets.get i).map Fin.val) := by
  simp [tables]

theorem getElem?_cycle (i : Fin g.sentences.size) :
    g.tables.cycle[(i : Nat)]? = some (g.cycleOf? (g.sentences.nameAt i)) := by
  simp [tables]

theorem formula?_nameAt (i : Fin g.sentences.size) :
    g.formula? (g.sentences.nameAt i) = some (g.sentences.formulaAt i) :=
  g.sentences.get?_nameAt i

theorem formula?_eq_none_iff {a : String} : g.formula? a = none ↔ a ∉ g.names :=
  g.sentences.get?_eq_none_iff

theorem position?_cases (a : String) :
    (g.sentences.position? a = none ∧ a ∉ g.names) ∨
      ∃ i, g.sentences.position? a = some i ∧ g.sentences.nameAt i = a := by
  cases hpos : g.sentences.position? a with
  | some i => exact Or.inr ⟨i, rfl, g.sentences.position?_eq_some_iff.1 hpos⟩
  | none =>
    refine Or.inl ⟨rfl, fun ha => ?_⟩
    obtain ⟨i, hi⟩ := g.sentences.exists_nameAt ha
    rw [g.sentences.position?_eq_some_iff.2 hi] at hpos
    cases hpos

/-- Every reference has a position, so that none is lost among the targets. -/
theorem map_nameAt_targets (i : Fin g.sentences.size) :
    (g.sentences.targets.get i).map g.sentences.nameAt =
      (g.sentences.formulaAt i).references := by
  apply NameMap.eq_of_ascending
  · rw [List.pairwise_map]
    exact (g.sentences.targets_ascending i).imp fun h => g.sentences.nameAt_lt h
  · exact NameMap.names_ascending _
  · intro a
    rw [List.mem_map, g.sentences.get_targets]
    constructor
    · intro h
      obtain ⟨j, hj, hname⟩ := h
      obtain ⟨b, hb, hpos⟩ := List.mem_filterMap.1 hj
      rw [← hname, g.sentences.position?_eq_some_iff.1 hpos]
      exact hb
    · intro ha
      obtain ⟨j, hj⟩ := g.sentences.exists_nameAt (g.resolved _ _ (g.formula?_nameAt i) a ha)
      exact ⟨j, List.mem_filterMap.2 ⟨a, ha, g.sentences.position?_eq_some_iff.2 hj⟩, hj⟩

/-! ### Answers by position -/

theorem formula?_tables (a : String) : g.tables.formula? a = some (g.formula? a) := by
  rw [PositionTables.formula?, index?_tables]
  rcases g.position?_cases a with h | h
  · rw [h.1, g.formula?_eq_none_iff.2 h.2]
    rfl
  · obtain ⟨i, hpos, hi⟩ := h
    rw [hpos, ← hi, formula?_nameAt]
    simp [tables, g.sentences.getElem?_entries]

theorem dependencies?_tables (a : String) :
    g.tables.dependencies? a = some (g.dependencies? a) := by
  rw [PositionTables.dependencies?, index?_tables, dependencies?]
  rcases g.position?_cases a with h | h
  · rw [h.1, g.formula?_eq_none_iff.2 h.2]
    rfl
  · obtain ⟨i, hpos, hi⟩ := h
    have hnames : ((g.sentences.targets.get i).map Fin.val).mapM g.tables.nameAt? =
        some (g.sentences.formulaAt i).references := by
      rw [List.mapM_map, ← map_nameAt_targets]
      exact g.mapM_nameAt?_tables _
    rw [hpos, ← hi, formula?_nameAt]
    show (g.tables.edges[(i : Nat)]?.bind _).map some = _
    rw [getElem?_edges, Option.bind_some, hnames]
    rfl

theorem isSelfReferential?_tables (a : String) :
    g.tables.isSelfReferential? a = some (g.isSelfReferential a) := by
  rw [PositionTables.isSelfReferential?, index?_tables, isSelfReferential, dependencies?]
  rcases g.position?_cases a with h | h
  · rw [h.1, g.formula?_eq_none_iff.2 h.2]
    rfl
  · obtain ⟨i, hpos, hi⟩ := h
    have hself : binarySearch i ((g.sentences.targets.get i).map Fin.val) =
        decide (g.sentences.nameAt i ∈ (g.sentences.formulaAt i).references) := by
      rw [Bool.eq_iff_iff, decide_eq_true_eq]
      exact g.sentences.binarySearch_targets i i
    rw [hpos, ← hi, formula?_nameAt]
    simp [getElem?_edges, hself]

theorem cycleOf?_tables (a : String) : g.tables.cycleOf? a = some (g.cycleOf? a) := by
  rw [PositionTables.cycleOf?, index?_tables]
  rcases g.position?_cases a with h | h
  · have hnone : g.cycleOf? a = none := by
      cases hc : g.cycleOf? a with
      | none => rfl
      | some id =>
        have hcyclic := isCyclic_iff.1 (isCyclic_iff_exists.2 ⟨id, hc⟩)
        exact absurd (g.mem_names_of_dependsOn hcyclic).1 h.2
    rw [h.1, hnone]
    rfl
  · obtain ⟨i, hpos, hi⟩ := h
    rw [hpos, ← hi]
    exact g.getElem?_cycle i

theorem zipIdx_edges : g.tables.edges.zipIdx =
    (List.finRange g.sentences.size).map fun i =>
      ((g.sentences.targets.get i).map Fin.val, (i : Nat)) := by
  apply List.ext_getElem
  · simp [tables]
  · intro i hi hi'
    simp [tables]

theorem dependents_eq_map_filter (b : String) :
    g.dependents b = ((List.finRange g.sentences.size).filter fun i =>
      b ∈ (g.sentences.formulaAt i).references).map g.sentences.nameAt := by
  rw [dependents, g.sentences.entries_eq_map, List.filter_map, List.map_map]
  rfl

theorem mem_dependents_iff {a b : String} :
    a ∈ g.dependents b ↔ g.sentences.Refers a b := by
  rw [dependents_eq_map_filter]
  simp only [List.mem_map, List.mem_filter, List.mem_finRange, true_and, decide_eq_true_eq,
    Sentences.Refers]
  constructor
  · intro h
    obtain ⟨i, hb, hi⟩ := h
    rw [← hi, g.sentences.get?_eq_formulaAt]
    exact ⟨_, rfl, Sentences.mem_references_iff.1 hb⟩
  · intro h
    obtain ⟨f, hf, hb⟩ := h
    obtain ⟨i, hi⟩ := g.sentences.exists_nameAt ((NameMap.mem_names_iff _).2 ⟨f, hf⟩)
    rw [← hi, g.sentences.get?_eq_formulaAt] at hf
    obtain rfl := Option.some.inj hf
    exact ⟨i, Sentences.mem_references_iff.2 hb, hi⟩

theorem dependents_of_not_mem {b : String} (hb : b ∉ g.names) : g.dependents b = [] := by
  apply List.eq_nil_iff_forall_not_mem.2
  intro a ha
  exact hb (g.mem_names_of_refers (g.mem_dependents_iff.1 ha)).2

theorem dependents_ascending (b : String) : (g.dependents b).Pairwise (· < ·) :=
  g.sentences.names_ascending.sublist (List.filter_sublist.map _)

theorem dependents?_tables (b : String) : g.tables.dependents? b = some (g.dependents b) := by
  rw [PositionTables.dependents?, index?_tables]
  rcases g.position?_cases b with h | h
  · rw [h.1, g.dependents_of_not_mem h.2]
    rfl
  · obtain ⟨j, hpos, hj⟩ := h
    have hfound (i : Fin g.sentences.size) :
        binarySearch j ((g.sentences.targets.get i).map Fin.val) =
          decide (b ∈ (g.sentences.formulaAt i).references) := by
      rw [← hj, Bool.eq_iff_iff, decide_eq_true_eq]
      exact g.sentences.binarySearch_targets i j
    rw [hpos, dependents_eq_map_filter, zipIdx_edges]
    simp only [Option.map_some, List.filter_map, List.mapM_map, Function.comp_def, hfound]
    exact g.mapM_nameAt?_tables _

/-! ### Answers and definitions -/

theorem exists_dependencies?_iff {a b : String} :
    (∃ bs, g.dependencies? a = some bs ∧ b ∈ bs) ↔ g.sentences.Refers a b := by
  simp only [dependencies?, Option.map_eq_some_iff, Sentences.Refers]
  constructor
  · intro h
    obtain ⟨bs, ⟨f, hf, hbs⟩, hb⟩ := h
    rw [← hbs, Sentences.mem_references_iff] at hb
    exact ⟨f, hf, hb⟩
  · intro h
    obtain ⟨f, hf, hb⟩ := h
    exact ⟨f.references, ⟨f, hf, rfl⟩, Sentences.mem_references_iff.2 hb⟩

theorem isSelfReferential_iff {a : String} :
    g.isSelfReferential a = true ↔ ∃ bs, g.dependencies? a = some bs ∧ a ∈ bs := by
  unfold isSelfReferential
  split
  · rename_i bs hbs
    simp [hbs]
  · rename_i hnone
    simp [hnone]

theorem isCyclic_of_isSelfReferential {a : String} (h : g.isSelfReferential a = true) :
    g.isCyclic a = true :=
  isCyclic_iff.2 (.single (g.exists_dependencies?_iff.1 (g.isSelfReferential_iff.1 h)))

/-- The queries of an accepted list of definitions.  A name has the formula that defines it; it
depends on the names in the formula, in ascending order, and is a dependent of each of them; a name
that depends on itself lies on a cycle.  Undefined names have no formula, no dependencies and no
dependents.  The same answers are found in tables of positions, where no query looks up a position
that is not there. -/
theorem queries_tell_definitions {ds : List (String × Formula)} {g : SentenceGraph}
    (h : ofDefinitions ds = .ok g) :
    (∀ a f, g.formula? a = some f ↔ (a, f) ∈ ds) ∧
    (∀ a, g.formula? a = none ↔ a ∉ ds.map (·.1)) ∧
    (∀ a f, (a, f) ∈ ds → ∃ bs, g.dependencies? a = some bs ∧ bs.Pairwise (· < ·) ∧
      ∀ b, b ∈ bs ↔ b ∈ f.occurrences) ∧
    (∀ a, g.dependencies? a = none ↔ a ∉ ds.map (·.1)) ∧
    (∀ a b, (∃ bs, g.dependencies? a = some bs ∧ b ∈ bs) ↔ a ∈ g.dependents b) ∧
    (∀ b, (g.dependents b).Pairwise (· < ·)) ∧
    (∀ b, b ∉ ds.map (·.1) → g.dependents b = []) ∧
    (∀ a, g.isSelfReferential a = true ↔ ∃ bs, g.dependencies? a = some bs ∧ a ∈ bs) ∧
    (∀ a, g.isSelfReferential a = true → g.isCyclic a = true ∧ g.shareCycle a a = true) ∧
    ∀ a, g.tables.formula? a = some (g.formula? a) ∧
      g.tables.dependencies? a = some (g.dependencies? a) ∧
      g.tables.dependents? a = some (g.dependents a) ∧
      g.tables.isSelfReferential? a = some (g.isSelfReferential a) ∧
      g.tables.cycleOf? a = some (g.cycleOf? a) := by
  have hnone (a : String) : g.formula? a = none ↔ a ∉ ds.map (·.1) := by
    rw [formula?_eq_none_iff, mem_names_ofDefinitions h]
  refine ⟨fun a f => formula?_eq_some_iff h, hnone, fun a f hf => ?_, fun a => ?_, fun a b => ?_,
    g.dependents_ascending, fun b hb => ?_, fun a => g.isSelfReferential_iff, fun a ha => ?_,
    fun a => ⟨g.formula?_tables a, g.dependencies?_tables a, g.dependents?_tables a,
      g.isSelfReferential?_tables a, g.cycleOf?_tables a⟩⟩
  · refine ⟨f.references, ?_, NameMap.names_ascending _, fun b => Sentences.mem_references_iff⟩
    rw [dependencies?, (formula?_eq_some_iff h).2 hf]
    rfl
  · rw [← hnone, dependencies?, Option.map_eq_none_iff]
  · rw [exists_dependencies?_iff, mem_dependents_iff]
  · exact g.dependents_of_not_mem (mt (mem_names_ofDefinitions h).1 hb)
  · have hcyclic := g.isCyclic_of_isSelfReferential ha
    exact ⟨hcyclic, isCyclic_iff_shareCycle.1 hcyclic⟩

/-- A sentence that refers to itself twice and to one that is defined before it. -/
theorem queries_tell_definitions_doubt :
    ∃ g, ofDefinitions [("doubt", .conj (.neg (.ref "doubt")) (.disj (.ref "claim") (.ref "doubt"))),
        ("claim", .ref "doubt")] = .ok g ∧
      (∃ bs, g.dependencies? "doubt" = some bs ∧ bs.Pairwise (· < ·) ∧ "claim" ∈ bs) ∧
      "doubt" ∈ g.dependents "claim" ∧ g.shareCycle "doubt" "doubt" = true ∧
      g.tables.dependents? "doubt" = some (g.dependents "doubt") := by
  obtain ⟨g, hg⟩ : ∃ g, ofDefinitions
      [("doubt", .conj (.neg (.ref "doubt")) (.disj (.ref "claim") (.ref "doubt"))),
        ("claim", .ref "doubt")] = .ok g :=
    exists_ofDefinitions (by decide +kernel) (by decide +kernel)
  obtain ⟨-, -, hdeps, -, hdependents, -, -, hself, hcyclic, htables⟩ := queries_tell_definitions hg
  obtain ⟨bs, hbs, hascending, hmem⟩ := hdeps "doubt" _ (List.mem_cons_self ..)
  have hclaim : "claim" ∈ bs := (hmem "claim").2 (by simp [Formula.occurrences])
  have hdoubt : "doubt" ∈ bs := (hmem "doubt").2 (by simp [Formula.occurrences])
  refine ⟨g, hg, ⟨bs, hbs, hascending, hclaim⟩, ?_, ?_, (htables "doubt").2.2.1⟩
  · exact (hdependents "doubt" "claim").1 ⟨bs, hbs, hclaim⟩
  · exact (hcyclic "doubt" ((hself "doubt").2 ⟨bs, hbs, hdoubt⟩)).2

end SentenceGraph

end SelfReference
