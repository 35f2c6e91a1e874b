import SelfReference.Proofs.SearchTables

/-!
# Components in the order of closing

A search opens every vertex once, leaves nothing on its stack between visits and closes a component
only after all components that its edges lead to, so the components come in reverse topological
order.  Kept in tables, no visit takes more moves than there are vertices and targets, and no access
leaves the tables.
-/

namespace SelfReference.Adjacency

variable {n : Nat} {adj : Adjacency n}

/-- Edges lead to the same component or to one closed before. -/
theorem Emission.position_le {cs : List (List (Fin n))} (h : adj.Emission cs)
    (hcs : cs.flatten.Nodup) {i j : Nat} {c d : List (Fin n)} (hc : cs.reverse[i]? = some c)
    (hd : cs.reverse[j]? = some d) {u v : Fin n} (hu : u ∈ c) (hv : v ∈ d)
    (hedge : adj.Edge u v) : j ≤ i := by
  induction h with
  | nil => cases hc
  | @cons b bs head tail ih =>
    rw [List.flatten_cons, List.nodup_append'] at hcs
    rw [List.reverse_cons] at hc hd
    have hj : j < bs.reverse.length + 1 := by
      have hlt := (List.getElem?_eq_some_iff.1 hd).1
      rwa [List.length_append, List.length_singleton] at hlt
    by_cases hi : i < bs.reverse.length
    · rw [List.getElem?_append_left hi] at hc
      have hcmem : c ∈ bs := List.mem_reverse.1 (List.mem_of_getElem? hc)
      have hvbs : v ∈ bs.flatten := tail.target_mem (List.mem_flatten_of_mem hcmem hu) hedge
      by_cases hjlt : j < bs.reverse.length
      · rw [List.getElem?_append_left hjlt] at hd
        exact ih hcs.2.1 hc hd
      · -- The last component has no member in common with those before it.
        have hjeq : j = bs.reverse.length := by omega
        rw [hjeq, List.getElem?_concat_length] at hd
        exact absurd hvbs (hcs.2.2 (Option.some.inj hd ▸ hv))
    · omega

theorem position_le_of_edge (adj : Adjacency n) {i j : Nat} {c d : List (Fin n)}
    (hc : adj.components[i]? = some c) (hd : adj.components[j]? = some d) {u v : Fin n}
    (hu : u ∈ c) (hv : v ∈ d) (hedge : adj.Edge u v) : j ≤ i :=
  (Search.invariant_complete adj).emission.position_le (nodup_flatten_emitted adj) hc hd hu hv hedge

theorem flatten_components_perm (adj : Adjacency n) :
    adj.components.flatten.Perm (List.finRange n) := by
  refine (List.perm_ext_iff_of_nodup (nodup_flatten_components adj) (List.nodup_finRange n)).2 ?_
  intro v
  obtain ⟨c, hc, hv⟩ := adj.exists_component v
  exact iff_of_true (List.mem_flatten_of_mem hc hv) (List.mem_finRange v)

theorem visits_rest (adj : Adjacency n) {t : SearchTables} {l : List (Fin n)}
    (ht : t.Represents adj (l.foldl (Search.visit adj) (Search.initial n))) :
    t.frames = [] ∧ t.stack = [] := by
  obtain ⟨hinv, hframes, -⟩ := (Search.invariant_initial adj).foldl_visit rfl l
  refine ⟨ht.frames_eq_nil_iff.2 hframes, ?_⟩
  rw [ht.stack, hinv.stack_eq_nil hframes]
  rfl

/-- A complete search has opened every vertex once. -/
theorem openings_perm (adj : Adjacency n) {t : SearchTables}
    (ht : t.Represents adj (Search.complete adj)) : t.openings.Perm (List.range n) := by
  refine (List.perm_ext_iff_of_nodup ht.openings_nodup List.nodup_range).2 fun k => ?_
  rw [ht.mem_openings, List.mem_range]
  constructor
  · intro h
    obtain ⟨v, hv, -⟩ := h
    exact hv ▸ v.isLt
  · intro hk
    refine ⟨⟨k, hk⟩, rfl, ?_⟩
    exact ((Search.invariant_initial adj).foldl_visit rfl _).2.2 _ (Or.inr (List.mem_finRange _))

/-- The search for the components of a graph whose targets are all among its `n` vertices, in any
order and repeated or not.  No visit takes more moves than there are vertices and targets, none
accesses a place outside the tables, and after each one the stack is empty.  Every vertex is opened
once and is once in one of the components; the component of a vertex holds what the vertex reaches
and is reached from; no edge leads to a component that is closed later. -/
theorem search_closes_components {edges : Array (Array Nat)} (hsize : edges.size = n)
    (htargets : ∀ targets ∈ edges, ∀ w ∈ targets, w < n) :
    ∃ adj : Adjacency n, adj.table = edges ∧
      (∀ k ≤ n, ∃ t,
        (∀ moves, (edges.toList.map fun targets => targets.size + 1).sum ≤ moves →
          SearchTables.visits? edges moves k = some t) ∧ t.frames = [] ∧ t.stack = []) ∧
      (∃ t, (∀ moves, (edges.toList.map fun targets => targets.size + 1).sum ≤ moves →
          SearchTables.visits? edges moves n = some t) ∧
        t.openings.Perm (List.range n) ∧ t.components = adj.components.map (List.map Fin.val)) ∧
      adj.components.flatten.Perm (List.finRange n) ∧
      (∀ c ∈ adj.components, c ≠ [] ∧
        ∀ u ∈ c, ∀ v, v ∈ c ↔ adj.Reaches u v ∧ adj.Reaches v u) ∧
      ∀ (i j : Nat) (c d : List (Fin n)), adj.components[i]? = some c →
        adj.components[j]? = some d → ∀ u ∈ c, ∀ v ∈ d, adj.Edge u v → j ≤ i := by
  obtain ⟨adj, htable⟩ : ∃ adj : Adjacency n, adj.table = edges :=
    ⟨ofTable hsize htargets, table_ofTable hsize htargets⟩
  subst htable
  refine ⟨adj, rfl, fun k hk => ?_, ?_, flatten_components_perm adj, fun c hc => ?_, ?_⟩
  · obtain ⟨t, hvisits, ht⟩ := SearchTables.exists_visits adj hk
    exact ⟨t, hvisits, adj.visits_rest ht⟩
  · obtain ⟨t, hvisits, ht⟩ := SearchTables.exists_visits adj (Nat.le_refl n)
    rw [List.take_of_length_le (Nat.le_of_eq (List.length_finRange ..))] at ht
    refine ⟨t, hvisits, adj.openings_perm ht, ?_⟩
    rw [ht.components, components, List.map_reverse]
    rfl
  · exact ⟨ne_nil_of_mem_components hc, fun u hu v => mem_component_iff hc hu⟩
  · intro i j c d hc hd u hu v hv hedge
    exact adj.position_le_of_edge hc hd hu hv hedge

/-- A ring of two vertices with a way out, its targets unsorted and one of them repeated. -/
theorem search_closes_components_ring :
    (∀ targets ∈ #[#[1, 1], #[2, 0], #[]], ∀ w ∈ targets, w < 3) ∧
      ∃ t, SearchTables.visits? #[#[1, 1], #[2, 0], #[]] 7 3 = some t ∧
        t.openings.Perm (List.range 3) ∧ t.components = [[2], [1, 0]] := by
  have htargets : ∀ targets ∈ #[#[1, 1], #[2, 0], #[]], ∀ w ∈ targets, w < 3 := by decide
  obtain ⟨adj, -, -, ⟨t, hvisits, hopenings, -⟩, -⟩ :=
    search_closes_components (n := 3) rfl htargets
  have hdone := hvisits 7 (by decide)
  refine ⟨htargets, t, hdone, hopenings, ?_⟩
  have hrun : (SearchTables.visits? #[#[1, 1], #[2, 0], #[]] 7 3).map SearchTables.components =
      some [[2], [1, 0]] := by decide
  rw [hdone] at hrun
  exact Option.some.inj hrun

end SelfReference.Adjacency
