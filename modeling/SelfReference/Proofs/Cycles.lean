import Mathlib.Data.List.Flatten
import SelfReference.Proofs.Components
import SelfReference.Proofs.Construction
import SelfReference.Proofs.NameGroups

/-!
# Cycles of dependencies

The cycle queries of a graph in terms of paths between names.  Positions carry the paths: an edge
between positions is a reference between names, and every reference of a graph is defined.
-/

namespace SelfReference

/-! ### Names and positions -/

namespace Sentences

variable (s : Sentences)

/-- The name at a position. -/
def nameAt (i : Fin s.size) : String := (s.entries.get i).1

/-- A sentence refers to a name. -/
def Refers (a b : String) : Prop := ∃ f, s.get? a = some f ∧ b ∈ f.occurrences

theorem nameAt_injective : Function.Injective s.nameAt := by
  intro i j hij
  have hentry : s.entries.get i = s.entries.get j :=
    List.inj_on_of_nodup_map s.names_nodup (List.get_mem ..) (List.get_mem ..) hij
  exact List.nodup_iff_injective_get.1 (List.Nodup.of_map _ s.names_nodup) hentry

theorem get?_nameAt (i : Fin s.size) : s.get? (s.nameAt i) = some (s.entries.get i).2 :=
  (s.get?_eq_some_iff).2 (List.get_mem ..)

theorem exists_nameAt {a : String} (h : a ∈ s.names) : ∃ i, s.nameAt i = a := by
  obtain ⟨e, he, rfl⟩ := List.mem_map.1 h
  obtain ⟨i, hi⟩ := List.get_of_mem he
  exact ⟨i, congrArg Prod.fst hi⟩

theorem position?_eq_some_iff {a : String} {i : Fin s.size} :
    s.position? a = some i ↔ s.nameAt i = a := by
  refine Iff.trans List.findFinIdx?_eq_some_iff ⟨fun h => ?_, fun h => ?_⟩
  · exact of_decide_eq_true h.1
  · refine ⟨decide_eq_true h, fun j hji hj => ?_⟩
    have hname : s.nameAt j = s.nameAt i := (of_decide_eq_true hj).trans h.symm
    exact absurd (s.nameAt_injective hname) (Fin.ne_of_lt hji)

theorem get_targets (i : Fin s.size) :
    s.targets.get i = (s.entries.get i).2.references.filterMap s.position? :=
  Vector.getElem_ofFn i.isLt

theorem edge_targets_iff {i j : Fin s.size} :
    s.targets.Edge i j ↔ s.Refers (s.nameAt i) (s.nameAt j) := by
  rw [Adjacency.Edge, get_targets, List.mem_filterMap, Refers, get?_nameAt]
  constructor
  · rintro ⟨a, ha, hpos⟩
    obtain rfl := s.position?_eq_some_iff.1 hpos
    exact ⟨_, rfl, mem_references_iff.1 ha⟩
  · rintro ⟨f, hf, hmem⟩
    obtain rfl := Option.some.inj hf
    exact ⟨_, mem_references_iff.2 hmem, s.position?_eq_some_iff.2 rfl⟩

theorem nameAt_lt {i j : Fin s.size} (h : i < j) : s.nameAt i < s.nameAt j :=
  List.pairwise_iff_getElem.1 s.ascending i j i.2 j.2 h

/-- Targets ascend without repetition, so that a binary search finds what is among them. -/
theorem targets_ascending (i : Fin s.size) : (s.targets.get i).Pairwise (· < ·) := by
  rw [get_targets]
  refine List.Pairwise.filterMap _ (fun a b hab j hj k hk => ?_) (NameMap.names_ascending _)
  rw [s.position?_eq_some_iff] at hj hk
  subst hj hk
  refine Nat.lt_of_not_le fun hkj => ?_
  rcases Nat.lt_or_eq_of_le hkj with hlt | heq
  · exact absurd (String.lt_trans hab (s.nameAt_lt hlt)) (String.lt_irrefl _)
  · exact absurd hab (Fin.ext heq ▸ String.lt_irrefl _)

/-! ### The numbers of the cycles -/

/-- The components that hold a cycle. -/
def cyclic : List (List (Fin s.size)) := s.targets.components.filter s.targets.holdsCycle

theorem map_fst_marks {α β : Type} (f : α → β) (l : List (List α)) :
    (l.zipIdx.flatMap fun p => p.1.map fun i => (f i, p.2)).map (·.1) = l.flatten.map f := by
  have hfst : (l.zipIdx.map Prod.fst).flatMap (List.map f) = l.flatten.map f := by
    rw [List.zipIdx_map_fst, List.flatMap_def, List.map_flatten]
  rw [← hfst, List.map_flatMap, List.flatMap_map]
  refine congrArg (fun g => l.zipIdx.flatMap g) (funext fun p => ?_)
  rw [List.map_map]
  rfl

theorem get?_cycleMarks {a : String} {id : Nat} :
    s.cycleMarks.get? a = some id ↔ ∃ c, s.cyclic[id]? = some c ∧ ∃ i ∈ c, s.nameAt i = a := by
  have hnodup : (s.cyclic.flatten.map s.nameAt).Nodup := by
    refine List.Nodup.map s.nameAt_injective ?_
    exact (Adjacency.nodup_flatten_components s.targets).sublist List.filter_sublist.flatten
  rw [← map_fst_marks] at hnodup
  show (NameMap.ofList (s.cyclic.zipIdx.flatMap fun p => p.1.map fun i => (s.nameAt i, p.2))).get? a
    = some id ↔ _
  rw [NameMap.get?_ofList_eq_some_iff hnodup]
  simp only [List.mem_flatMap, List.mem_map, Prod.exists, Prod.mk.injEq,
    List.mem_zipIdx_iff_getElem?]
  constructor
  · rintro ⟨c, _, hc, i, hi, rfl, rfl⟩
    exact ⟨c, hc, i, hi, rfl⟩
  · rintro ⟨c, hc, i, hi, rfl⟩
    exact ⟨c, id, hc, i, hi, rfl, rfl⟩

end Sentences

namespace SentenceGraph

/-! ### Paths between names -/

section Paths

variable (g : SentenceGraph)

/-- A non-empty path of references from one name to another. -/
def DependsOn (a b : String) : Prop := Relation.TransGen g.sentences.Refers a b

theorem mem_names_of_refers {a b : String} (h : g.sentences.Refers a b) :
    a ∈ g.sentences.names ∧ b ∈ g.sentences.names := by
  obtain ⟨f, hf, hb⟩ := h
  refine ⟨(NameMap.mem_names_iff _).2 ⟨f, hf⟩, ?_⟩
  exact g.resolved a f hf b (Sentences.mem_references_iff.2 hb)

theorem mem_names_of_dependsOn {a b : String} (h : g.DependsOn a b) :
    a ∈ g.names ∧ b ∈ g.names := by
  obtain ⟨c, hac, -⟩ := Relation.TransGen.head'_iff.1 h
  obtain ⟨d, -, hdb⟩ := Relation.TransGen.tail'_iff.1 h
  exact ⟨(g.mem_names_of_refers hac).1, (g.mem_names_of_refers hdb).2⟩

theorem exists_nameAt_of_dependsOn {a b : String} (h : g.DependsOn a b) :
    ∃ i, g.sentences.nameAt i = a := g.sentences.exists_nameAt (g.mem_names_of_dependsOn h).1

theorem exists_path_of_dependsOn {i : Fin g.sentences.size} {b : String}
    (h : g.DependsOn (g.sentences.nameAt i) b) :
    ∃ j, g.sentences.nameAt j = b ∧ Relation.TransGen g.sentences.targets.Edge i j := by
  induction h with
  | single hedge =>
    obtain ⟨j, rfl⟩ := g.sentences.exists_nameAt (g.mem_names_of_refers hedge).2
    exact ⟨j, rfl, .single (g.sentences.edge_targets_iff.2 hedge)⟩
  | tail _ hedge ih =>
    obtain ⟨j, rfl, hpath⟩ := ih
    obtain ⟨k, rfl⟩ := g.sentences.exists_nameAt (g.mem_names_of_refers hedge).2
    exact ⟨k, rfl, hpath.tail (g.sentences.edge_targets_iff.2 hedge)⟩

/-- Paths between positions are paths between their names. -/
theorem dependsOn_nameAt_iff {i j : Fin g.sentences.size} :
    g.DependsOn (g.sentences.nameAt i) (g.sentences.nameAt j) ↔
      Relation.TransGen g.sentences.targets.Edge i j := by
  constructor
  · intro h
    obtain ⟨k, hk, hpath⟩ := g.exists_path_of_dependsOn h
    obtain rfl := g.sentences.nameAt_injective hk
    exact hpath
  · intro h
    exact Relation.TransGen.lift g.sentences.nameAt
      (fun _ _ hedge => g.sentences.edge_targets_iff.1 hedge) _ _ h

end Paths

/-! ### The queries -/

section Queries

variable {g : SentenceGraph} {a b : String}

theorem cycleOf?_eq_some_iff {id : Nat} :
    g.cycleOf? a = some id ↔
      ∃ c, g.sentences.cyclic[id]? = some c ∧ ∃ i ∈ c, g.sentences.nameAt i = a := by
  rw [cycleOf?, g.marks_eq, Sentences.get?_cycleMarks]

theorem shareCycle_iff_exists :
    g.shareCycle a b = true ↔ ∃ id, g.cycleOf? a = some id ∧ g.cycleOf? b = some id := by
  unfold shareCycle
  split
  · rename_i i j hi hj
    simp [hi, hj, eq_comm]
  · rename_i hnone
    refine ⟨fun h => Bool.noConfusion h, fun ⟨id, ha, hb⟩ => absurd hb (hnone id id ha)⟩

theorem isCyclic_iff_exists : g.isCyclic a = true ↔ ∃ id, g.cycleOf? a = some id :=
  Option.isSome_iff_exists

theorem isCyclic_iff_shareCycle : g.isCyclic a = true ↔ g.shareCycle a a = true := by
  rw [isCyclic_iff_exists, shareCycle_iff_exists]
  simp only [and_self]

/-- Names share a cycle exactly if each one depends on the other. -/
theorem shareCycle_iff : g.shareCycle a b = true ↔ g.DependsOn a b ∧ g.DependsOn b a := by
  rw [shareCycle_iff_exists]
  constructor
  · rintro ⟨id, ha, hb⟩
    obtain ⟨c, hc, i, hi, rfl⟩ := cycleOf?_eq_some_iff.1 ha
    obtain ⟨d, hd, j, hj, rfl⟩ := cycleOf?_eq_some_iff.1 hb
    obtain rfl : c = d := Option.some.inj (hc.symm.trans hd)
    obtain ⟨hmem, hcycle⟩ := List.mem_filter.1 (List.mem_of_getElem? hc)
    obtain ⟨hij, hji⟩ := (Adjacency.mem_component_iff hmem hi).1 hj
    rw [g.dependsOn_nameAt_iff, g.dependsOn_nameAt_iff]
    exact ⟨((Adjacency.holdsCycle_iff hmem hi).1 hcycle).trans_left hij,
      ((Adjacency.holdsCycle_iff hmem hj).1 hcycle).trans_left hji⟩
  · rintro ⟨hab, hba⟩
    obtain ⟨i, rfl⟩ := g.exists_nameAt_of_dependsOn hab
    obtain ⟨j, rfl⟩ := g.exists_nameAt_of_dependsOn hba
    rw [g.dependsOn_nameAt_iff] at hab hba
    obtain ⟨c, hc, hi⟩ := g.sentences.targets.exists_component i
    have hj : j ∈ c :=
      (Adjacency.mem_component_iff hc hi).2 ⟨hab.to_reflTransGen, hba.to_reflTransGen⟩
    have hcyclic : c ∈ g.sentences.cyclic :=
      List.mem_filter.2 ⟨hc, (Adjacency.holdsCycle_iff hc hi).2 (hab.trans hba)⟩
    obtain ⟨id, hid⟩ := List.mem_iff_getElem?.1 hcyclic
    exact ⟨id, cycleOf?_eq_some_iff.2 ⟨c, hid, i, hi, rfl⟩,
      cycleOf?_eq_some_iff.2 ⟨c, hid, j, hj, rfl⟩⟩

theorem isCyclic_iff : g.isCyclic a = true ↔ g.DependsOn a a := by
  rw [isCyclic_iff_shareCycle, shareCycle_iff, and_self]

/-! ### The list of cycles -/

theorem cycles_eq_nameGroups (g : SentenceGraph) : g.cycles = nameGroups g.marks.entries := rfl

theorem mem_entries_iff {id : Nat} : (a, id) ∈ g.marks.entries ↔ g.cycleOf? a = some id :=
  (g.marks.get?_eq_some_iff).symm

theorem isAcyclic_iff_cycles : g.isAcyclic = true ↔ g.cycles = [] := by
  rw [cycles_eq_nameGroups]
  show g.marks.entries.isEmpty = true ↔ _
  cases h : g.marks.entries with
  | nil => simp [nameGroups]
  | cons e l =>
    obtain ⟨n, id⟩ := e
    simp [nameGroups_cons]

theorem isAcyclic_iff : g.isAcyclic = true ↔ ∀ a, ¬ g.DependsOn a a := by
  show g.marks.entries.isEmpty = true ↔ _
  rw [List.isEmpty_iff]
  constructor
  · intro hempty a ha
    obtain ⟨id, hid⟩ := isCyclic_iff_exists.1 (isCyclic_iff.2 ha)
    exact List.not_mem_nil (hempty ▸ mem_entries_iff.2 hid)
  · intro hnone
    refine List.eq_nil_iff_forall_not_mem.2 fun e he => hnone e.1 ?_
    exact isCyclic_iff.1 (isCyclic_iff_exists.2 ⟨e.2, mem_entries_iff.1 he⟩)

/-- A cycle holds what shares a cycle with any of its members. -/
theorem mem_cycle_iff {c : List String} (hc : c ∈ g.cycles) (ha : a ∈ c) :
    b ∈ c ↔ g.shareCycle a b = true := by
  obtain ⟨-, id, -, rfl⟩ := mem_nameGroups.1 hc
  have haid : g.cycleOf? a = some id := mem_entries_iff.1 (mem_namesOf.1 ha)
  rw [mem_namesOf, mem_entries_iff, shareCycle_iff_exists]
  refine ⟨fun hb => ⟨id, haid, hb⟩, fun ⟨i, hai, hbi⟩ => ?_⟩
  obtain rfl : i = id := Option.some.inj (hai.symm.trans haid)
  exact hbi

theorem exists_mem_cycle {c : List String} (hc : c ∈ g.cycles) : ∃ a, a ∈ c := by
  obtain ⟨a, id, hmem, rfl⟩ := mem_nameGroups.1 hc
  exact ⟨a, mem_namesOf.2 hmem⟩

theorem exists_cycle (ha : g.isCyclic a = true) : ∃ c ∈ g.cycles, a ∈ c := by
  obtain ⟨id, hid⟩ := isCyclic_iff_exists.1 ha
  have hmem := mem_entries_iff.2 hid
  exact ⟨namesOf g.marks.entries id, mem_nameGroups.2 ⟨a, id, hmem, rfl⟩, mem_namesOf.2 hmem⟩

theorem cycle_ascending {c : List String} (hc : c ∈ g.cycles) : c.Pairwise (· < ·) := by
  obtain ⟨-, id, -, rfl⟩ := mem_nameGroups.1 hc
  exact namesOf_ascending g.marks.ascending id

/-- The cycles are the classes of names that share one, each class in ascending order. -/
theorem mem_cycles_iff {c : List String} :
    c ∈ g.cycles ↔ c.Pairwise (· < ·) ∧
      ∃ a, g.isCyclic a = true ∧ ∀ b, b ∈ c ↔ g.shareCycle a b = true := by
  constructor
  · intro hc
    obtain ⟨a, ha⟩ := exists_mem_cycle hc
    exact ⟨cycle_ascending hc, a, isCyclic_iff_shareCycle.2 ((mem_cycle_iff hc ha).1 ha),
      fun b => mem_cycle_iff hc ha⟩
  · rintro ⟨hc, a, ha, hmem⟩
    obtain ⟨d, hd, had⟩ := exists_cycle ha
    obtain rfl : c = d := NameMap.eq_of_ascending hc (cycle_ascending hd) fun b =>
      (hmem b).trans (mem_cycle_iff hd had).symm
    exact hd

theorem mem_flatten_cycles_iff : a ∈ g.cycles.flatten ↔ g.isCyclic a = true := by
  rw [List.mem_flatten]
  constructor
  · rintro ⟨c, hc, ha⟩
    exact isCyclic_iff_shareCycle.2 ((mem_cycle_iff hc ha).1 ha)
  · exact exists_cycle

theorem cycles_ascending (g : SentenceGraph) : g.cycles.Pairwise (List.Lex (· < ·)) :=
  nameGroups_ascending g.marks.ascending

theorem cycles_nodup (g : SentenceGraph) : g.cycles.Nodup := by
  refine g.cycles_ascending.imp fun {c d} hlt heq => ?_
  exact List.lex_irrefl String.lt_irrefl d (heq ▸ hlt)

theorem cycles_eq_of_mem_iff {g h : SentenceGraph} (hmem : ∀ c, c ∈ g.cycles ↔ c ∈ h.cycles) :
    g.cycles = h.cycles := by
  have hperm := (List.perm_ext_iff_of_nodup g.cycles_nodup h.cycles_nodup).2 hmem
  refine hperm.eq_of_pairwise (fun c d _ _ hcd hdc => ?_) g.cycles_ascending h.cycles_ascending
  exact absurd hdc (List.lex_asymm String.lt_asymm hcd)

end Queries

/-! ### Cycles of definitions -/

/-- In a list of definitions the formula of one name refers to another name. -/
def RefersIn (ds : List (String × Formula)) (a b : String) : Prop :=
  ∃ f, (a, f) ∈ ds ∧ b ∈ f.occurrences

theorem refers_eq_refersIn {ds : List (String × Formula)} {g : SentenceGraph}
    (h : ofDefinitions ds = .ok g) : g.sentences.Refers = RefersIn ds := by
  funext a b
  refine propext (exists_congr fun f => and_congr_left' ?_)
  exact formula?_eq_some_iff h

/-- The cycle queries are mutual reachability along references, and the cycles are its classes, each
one listed once: they ascend strictly, and so do the names of each. -/
theorem cycles_are_mutual_paths {ds : List (String × Formula)} {g : SentenceGraph}
    (h : ofDefinitions ds = .ok g) :
    (∀ a b, g.shareCycle a b = true ↔
      Relation.TransGen (RefersIn ds) a b ∧ Relation.TransGen (RefersIn ds) b a) ∧
    (∀ a, g.isCyclic a = true ↔ Relation.TransGen (RefersIn ds) a a) ∧
    (g.isAcyclic = true ↔ ∀ a, ¬ Relation.TransGen (RefersIn ds) a a) ∧
    (g.isAcyclic = true ↔ g.cycles = []) ∧
    (∀ c, c ∈ g.cycles ↔ c.Pairwise (· < ·) ∧
      ∃ a, g.isCyclic a = true ∧ ∀ b, b ∈ c ↔ g.shareCycle a b = true) ∧
    g.cycles.Nodup ∧
    g.cycles.Pairwise List.Disjoint ∧
    g.cycles.Pairwise (List.Lex (· < ·)) ∧
    (∀ a, a ∈ g.cycles.flatten ↔ g.isCyclic a = true) := by
  rw [← refers_eq_refersIn h]
  have hascending := nameGroups_ascending g.marks.ascending
  refine ⟨fun _ _ => shareCycle_iff, fun _ => isCyclic_iff, isAcyclic_iff, isAcyclic_iff_cycles,
    fun _ => mem_cycles_iff, ?_, nameGroups_disjoint g.marks.ascending, hascending,
    fun _ => mem_flatten_cycles_iff⟩
  refine List.Pairwise.imp ?_ hascending
  intro c d hlt heq
  exact List.lex_irrefl String.lt_irrefl d (heq ▸ hlt)

/-- Two sentences on a cycle beside a tail that leads into it. -/
theorem cycles_are_mutual_paths_tail :
    ∃ g, ofDefinitions [("tail", .ref "a"), ("b", .neg (.ref "a")), ("a", .ref "b")] = .ok g ∧
      g.shareCycle "a" "b" = true ∧ g.isCyclic "a" = true ∧ g.isAcyclic = false ∧
      "a" ∈ g.cycles.flatten := by
  obtain ⟨g, hg⟩ : ∃ g, ofDefinitions
      [("tail", .ref "a"), ("b", .neg (.ref "a")), ("a", .ref "b")] = .ok g :=
    exists_ofDefinitions (by decide +kernel) (by decide +kernel)
  obtain ⟨hshare, hcyclic, hacyclic, -, -, -, -, -, hunion⟩ := cycles_are_mutual_paths hg
  have hab : Relation.TransGen (RefersIn [("tail", .ref "a"), ("b", .neg (.ref "a")),
      ("a", .ref "b")]) "a" "b" := .single ⟨.ref "b", by simp, by simp [Formula.occurrences]⟩
  have hba : Relation.TransGen (RefersIn [("tail", .ref "a"), ("b", .neg (.ref "a")),
      ("a", .ref "b")]) "b" "a" := .single ⟨.neg (.ref "a"), by simp, by simp [Formula.occurrences]⟩
  have hself := (hcyclic "a").2 (hab.trans hba)
  refine ⟨g, hg, (hshare "a" "b").2 ⟨hab, hba⟩, hself, ?_, (hunion "a").2 hself⟩
  exact Bool.eq_false_iff.2 fun htrue => hacyclic.1 htrue "a" (hab.trans hba)

end SentenceGraph

end SelfReference
