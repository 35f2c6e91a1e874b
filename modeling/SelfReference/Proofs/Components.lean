import SelfReference.Proofs.SearchMoves

/-!
# The components a search closes

A search that has visited every vertex has put each one into a component, and the component of a
vertex holds exactly what the vertex reaches and is reached from.
-/

namespace SelfReference

variable {n : Nat} {adj : Adjacency n}

namespace Search

/-! ### The whole search -/

theorem Invariant.drain {s : Search n} (h : Invariant adj s) : Invariant adj (s.drain adj) := by
  fun_induction Search.drain adj s with
  | case1 s hs => exact h
  | case2 s hs ih => exact ih h.move

/-- Without frames the stack is empty, because no vertex on it is the lowest one. -/
theorem Sound.stack_eq_nil {s : Search n} (h : Sound adj s) (hs : s.frames = []) :
    s.stack = [] := by
  refine List.eq_nil_iff_forall_not_mem.2 fun u hu => ?_
  induction hk : s.number u using Nat.strongRecOn generalizing u with
  | ind k ih =>
    obtain ⟨v, hv, hlt, -⟩ := h.retreat u hu fun f hf => absurd hf (hs ▸ List.not_mem_nil)
    exact ih (s.number v) (hk ▸ hlt) v hv rfl

theorem opened_move {s : Search n} {v : Fin n} (hv : s.number? v ≠ none) :
    (s.move adj).number? v ≠ none := by
  unfold Search.move
  split
  · exact hv
  · unfold Search.closeFrame
    split <;> exact hv
  · rename_i x low w ws rest _
    unfold Search.follow
    split
    · rename_i hw
      have hne : v ≠ w := fun heq => hv (heq ▸ hw)
      rw [number?_openVertex_of_ne hne]
      exact hv
    · exact hv

theorem opened_drain {s : Search n} {v : Fin n} (hv : s.number? v ≠ none) :
    (s.drain adj).number? v ≠ none := by
  fun_induction Search.drain adj s with
  | case1 s hs => exact hv
  | case2 s hs ih => exact ih (opened_move hv)

theorem opened_openVertex (s : Search n) (v : Fin n) : (openVertex adj v s).number? v ≠ none := by
  rw [number?_openVertex_self]
  exact Option.some_ne_none _

theorem opened_visit (s : Search n) (v : Fin n) : (s.visit adj v).number? v ≠ none := by
  unfold visit
  split
  · exact opened_drain (opened_openVertex s v)
  · assumption

theorem opened_visit_of_opened {s : Search n} {u : Fin n} (hu : s.number? u ≠ none) (v : Fin n) :
    (s.visit adj v).number? u ≠ none := by
  unfold visit
  split
  · rename_i hv
    have hne : u ≠ v := fun heq => hu (heq ▸ hv)
    refine opened_drain ?_
    rw [number?_openVertex_of_ne hne]
    exact hu
  · exact hu

theorem frames_visit {s : Search n} (hs : s.frames = []) (v : Fin n) :
    (s.visit adj v).frames = [] := by
  unfold visit
  split
  · exact frames_drain ..
  · exact hs

theorem Invariant.openRoot {s : Search n} (h : Invariant adj s) (hs : s.frames = []) {v : Fin n}
    (hv : s.number? v = none) : Invariant adj (Search.openVertex adj v s) := by
  refine h.toSound.invariant_openVertex hv (fun f hf => ?_) fun f hf => ?_
  · exact absurd hf (hs ▸ List.not_mem_nil)
  · exact absurd hf (hs ▸ List.not_mem_nil)

theorem Invariant.visit {s : Search n} (h : Invariant adj s) (hs : s.frames = []) (v : Fin n) :
    Invariant adj (s.visit adj v) := by
  unfold Search.visit
  split
  · rename_i hv
    exact (h.openRoot hs hv).drain
  · exact h

/-- Visiting vertices in turn keeps the invariant, ends without frames and opens every one. -/
theorem Invariant.foldl_visit {s : Search n} (h : Invariant adj s) (hs : s.frames = [])
    (l : List (Fin n)) :
    Invariant adj (l.foldl (Search.visit adj) s) ∧ (l.foldl (Search.visit adj) s).frames = [] ∧
      ∀ v, s.number? v ≠ none ∨ v ∈ l → (l.foldl (Search.visit adj) s).number? v ≠ none := by
  induction l generalizing s with
  | nil => exact ⟨h, hs, fun v hv => hv.resolve_right List.not_mem_nil⟩
  | cons u l ih =>
    obtain ⟨hinv, hframes, hopened⟩ := ih (h.visit hs u) (frames_visit hs u)
    refine ⟨hinv, hframes, fun v hv => hopened v ?_⟩
    rcases hv with hv | hv
    · exact Or.inl (opened_visit_of_opened hv u)
    · rcases List.mem_cons.1 hv with rfl | hv
      · exact Or.inl (opened_visit s v)
      · exact Or.inr hv

theorem invariant_complete (adj : Adjacency n) : Invariant adj (complete adj) :=
  ((invariant_initial adj).foldl_visit rfl _).1

theorem stack_complete (adj : Adjacency n) : (complete adj).stack = [] :=
  (invariant_complete adj).stack_eq_nil ((invariant_initial adj).foldl_visit rfl _).2.1

/-- A complete search has put every vertex into a component. -/
theorem mem_emitted_complete (adj : Adjacency n) (v : Fin n) :
    v ∈ (complete adj).emitted.flatten := by
  have hopened : (complete adj).number? v ≠ none :=
    ((invariant_initial adj).foldl_visit rfl _).2.2 v (Or.inr (List.mem_finRange v))
  refine (((invariant_complete adj).opened_iff v).1 hopened).resolve_left ?_
  rw [stack_complete]
  exact List.not_mem_nil

end Search

/-! ### The components -/

namespace Adjacency

theorem mem_components_iff {c : List (Fin n)} :
    c ∈ adj.components ↔ c ∈ (Search.complete adj).emitted := List.mem_reverse

theorem nodup_flatten_emitted (adj : Adjacency n) :
    (Search.complete adj).emitted.flatten.Nodup :=
  (List.nodup_append'.1 (Search.invariant_complete adj).nodup).2.1

theorem exists_component (adj : Adjacency n) (v : Fin n) : ∃ c ∈ adj.components, v ∈ c := by
  obtain ⟨c, hc, hv⟩ := List.mem_flatten.1 (Search.mem_emitted_complete adj v)
  exact ⟨c, mem_components_iff.2 hc, hv⟩

theorem nodup_flatten_components (adj : Adjacency n) : adj.components.flatten.Nodup := by
  have hperm : adj.components.flatten.Perm (Search.complete adj).emitted.flatten :=
    (List.reverse_perm _).flatten
  exact hperm.nodup_iff.2 (nodup_flatten_emitted adj)

theorem ne_nil_of_mem_components {c : List (Fin n)} (hc : c ∈ adj.components) : c ≠ [] :=
  (Search.invariant_complete adj).emission.ne_nil (mem_components_iff.1 hc)

/-- The component of a vertex holds what the vertex reaches and is reached from. -/
theorem mem_component_iff {c : List (Fin n)} (hc : c ∈ adj.components) {u : Fin n} (hu : u ∈ c)
    {v : Fin n} : v ∈ c ↔ adj.Reaches u v ∧ adj.Reaches v u :=
  (Search.invariant_complete adj).emission.mem_iff (nodup_flatten_emitted adj)
    (mem_components_iff.1 hc) hu

/-- A component holds a cycle if one goes through any of its members. -/
theorem holdsCycle_iff {c : List (Fin n)} (hc : c ∈ adj.components) {u : Fin n} (hu : u ∈ c) :
    adj.holdsCycle c = true ↔ Relation.TransGen adj.Edge u u := by
  have hnodup : c.Nodup :=
    (nodup_flatten_components adj).sublist (List.sublist_flatten_of_mem hc)
  match c, hc, hu, hnodup with
  | [v], hc, hu, _ =>
    obtain rfl := List.mem_singleton.1 hu
    refine ⟨fun h => ?_, fun h => ?_⟩
    · have hself := of_decide_eq_true h
      exact Relation.TransGen.single hself
    · obtain ⟨w, hw, hwu⟩ := Relation.TransGen.head'_iff.1 h
      have hmem : w ∈ [u] := (mem_component_iff hc hu).2 ⟨Relation.ReflTransGen.single hw, hwu⟩
      obtain rfl := List.mem_singleton.1 hmem
      exact decide_eq_true hw
  | v :: w :: ws, hc, hu, hnodup =>
    refine ⟨fun _ => ?_, fun _ => rfl⟩
    obtain ⟨x, hx, hne⟩ : ∃ x ∈ v :: w :: ws, x ≠ u := by
      by_cases hvu : v = u
      · have hvw : v ≠ w := fun heq =>
          (List.nodup_cons.1 hnodup).1 (heq ▸ List.mem_cons_self ..)
        exact ⟨w, by simp, fun hwu => hvw (hvu.trans hwu.symm)⟩
      · exact ⟨v, List.mem_cons_self .., hvu⟩
    obtain ⟨hux, hxu⟩ := (mem_component_iff hc hu).1 hx
    have hpath : Relation.TransGen adj.Edge u x :=
      (Relation.reflTransGen_iff_eq_or_transGen.1 hux).resolve_left hne
    exact hpath.trans_left hxu

end Adjacency

end SelfReference
