import SelfReference.Proofs.Reachability

/-!
# What a search keeps

The stack holds opened vertices by falling discovery number.  Every vertex above a frame is reached
from it, every vertex without a frame has a path to a lower one, and every edge that leaves the
stack part above a frame is still to be followed or has lowered a frame at or above it.  So once a
frame is finished at the number of its own vertex, what lies above it is a component.
-/

namespace SelfReference

variable {n : Nat} {adj : Adjacency n}

namespace Search

/-- The discovery number of a vertex once it is opened. -/
def number? (s : Search n) (v : Fin n) : Option Nat := s.index.get v

/-- The discovery number of an opened vertex. -/
def number (s : Search n) (v : Fin n) : Nat := (s.number? v).getD 0

/-- The edge from `u` to `v` is looked after at or above a frame: it is still to be followed, or its
end is on the stack and has lowered a frame. -/
def Tended (s : Search n) (f : Frame n) (u v : Fin n) : Prop :=
  ∃ g ∈ s.frames, s.number f.vertex ≤ s.number g.vertex ∧
    (v ∈ s.stack ∧ g.low ≤ s.number v ∨ g.vertex = u ∧ v ∈ g.pending)

/-- The frames, the stack and the closed components of a search fit together. -/
structure Sound (adj : Adjacency n) (s : Search n) : Prop where
  opened_iff : ∀ v, s.number? v ≠ none ↔ v ∈ s.stack ∨ v ∈ s.emitted.flatten
  nodup : (s.stack ++ s.emitted.flatten).Nodup
  number_lt : ∀ v ∈ s.stack, s.number v < s.opened
  descending : s.stack.Pairwise fun u v => s.number v < s.number u
  emission : adj.Emission s.emitted
  frame_mem : ∀ f ∈ s.frames, f.vertex ∈ s.stack
  frames_descending : s.frames.Pairwise fun f g => s.number g.vertex < s.number f.vertex
  pending_edge : ∀ f ∈ s.frames, ∀ w ∈ f.pending, adj.Edge f.vertex w
  low_le : ∀ f ∈ s.frames, f.low ≤ s.number f.vertex
  low_reached : ∀ f ∈ s.frames, ∃ u ∈ s.stack, s.number u = f.low ∧ adj.Reaches f.vertex u
  above : ∀ f ∈ s.frames, ∀ u ∈ s.stack, s.number f.vertex ≤ s.number u → adj.Reaches f.vertex u
  retreat : ∀ u ∈ s.stack, (∀ f ∈ s.frames, f.vertex ≠ u) →
    ∃ v ∈ s.stack, s.number v < s.number u ∧ adj.Reaches u v

/-- A sound search that looks after every edge from above a frame, but for edges to closed
components. -/
structure Invariant (adj : Adjacency n) (s : Search n) : Prop extends Sound adj s where
  tended : ∀ f ∈ s.frames, ∀ u ∈ s.stack, s.number f.vertex ≤ s.number u →
    ∀ v, adj.Edge u v → v ∉ s.emitted.flatten → s.Tended f u v

theorem invariant_initial (adj : Adjacency n) : Invariant adj (initial n) where
  opened_iff v := by
    have hnone : (initial n).number? v = none := Vector.getElem_replicate v.isLt
    rw [hnone]
    simp [initial]
  nodup := List.nodup_nil
  number_lt _ h := absurd h List.not_mem_nil
  descending := List.Pairwise.nil
  emission := .nil
  frame_mem _ h := absurd h List.not_mem_nil
  frames_descending := List.Pairwise.nil
  pending_edge _ h := absurd h List.not_mem_nil
  low_le _ h := absurd h List.not_mem_nil
  low_reached _ h := absurd h List.not_mem_nil
  above _ h := absurd h List.not_mem_nil
  retreat _ h := absurd h List.not_mem_nil
  tended _ h := absurd h List.not_mem_nil

/-! ### Numbers on the stack -/

theorem number?_eq_some_iff {s : Search n} {v : Fin n} (hv : s.number? v ≠ none) {k : Nat} :
    s.number? v = some k ↔ s.number v = k := by
  unfold number
  cases h : s.number? v with
  | none => exact absurd h hv
  | some j => simp

namespace Sound

variable {s : Search n}

theorem opened_of_mem (h : Sound adj s) {v : Fin n} (hv : v ∈ s.stack) : s.number? v ≠ none :=
  (h.opened_iff v).2 (Or.inl hv)

theorem not_mem_stack (h : Sound adj s) {v : Fin n} (hv : s.number? v = none) : v ∉ s.stack :=
  fun hmem => h.opened_of_mem hmem hv

theorem number_injOn (h : Sound adj s) {u v : Fin n} (hu : u ∈ s.stack) (hv : v ∈ s.stack)
    (huv : s.number u = s.number v) : u = v := by
  have hnodup : (s.stack.map s.number).Nodup := by
    rw [List.Nodup, List.pairwise_map]
    exact h.descending.imp fun hlt heq => by omega
  exact List.inj_on_of_nodup_map hnodup hu hv huv

theorem number_lt_innermost (h : Sound adj s) {f : Frame n} {rest : List (Frame n)}
    (hframes : s.frames = f :: rest) {g : Frame n} (hg : g ∈ rest) :
    s.number g.vertex < s.number f.vertex := by
  have hdesc := h.frames_descending
  rw [hframes, List.pairwise_cons] at hdesc
  exact hdesc.1 g hg

theorem number_le_innermost (h : Sound adj s) {f : Frame n} {rest : List (Frame n)}
    (hframes : s.frames = f :: rest) {g : Frame n} (hg : g ∈ s.frames) :
    s.number g.vertex ≤ s.number f.vertex := by
  rcases List.mem_cons.1 (hframes ▸ hg) with rfl | hg
  · exact Nat.le_refl _
  · exact Nat.le_of_lt (h.number_lt_innermost hframes hg)

theorem frames_distinct (h : Sound adj s) :
    s.frames.Pairwise fun f g => g.vertex ≠ f.vertex := by
  refine h.frames_descending.imp ?_
  intro f g hlt heq
  rw [heq] at hlt
  exact Nat.lt_irrefl _ hlt

theorem disjoint (h : Sound adj s) {v : Fin n} (hv : v ∈ s.stack) : v ∉ s.emitted.flatten :=
  (List.nodup_append'.1 h.nodup).2.2 hv

end Sound

/-! ### Opening a vertex -/

section Open

variable {s : Search n} {w : Fin n}

theorem number?_openVertex_self (s : Search n) (w : Fin n) :
    (openVertex adj w s).number? w = some s.opened := Vector.getElem_set_self w.isLt

theorem number_openVertex_self (s : Search n) (w : Fin n) :
    (openVertex adj w s).number w = s.opened := by
  rw [number, number?_openVertex_self]
  rfl

theorem number?_openVertex_of_ne {v : Fin n} (h : v ≠ w) :
    (openVertex adj w s).number? v = s.number? v :=
  Vector.getElem_set_ne w.isLt v.isLt fun heq => h (Fin.ext heq.symm)

theorem number_openVertex_of_ne {v : Fin n} (h : v ≠ w) :
    (openVertex adj w s).number v = s.number v := by
  rw [number, number?_openVertex_of_ne h, number]

variable (h : Sound adj s) (hw : s.number? w = none)
include h hw

theorem Sound.number_openVertex {v : Fin n} (hv : v ∈ s.stack) :
    (openVertex adj w s).number v = s.number v :=
  number_openVertex_of_ne fun heq => h.not_mem_stack hw (heq ▸ hv)

theorem Sound.number_openVertex_frame {f : Frame n} (hf : f ∈ s.frames) :
    (openVertex adj w s).number f.vertex = s.number f.vertex :=
  h.number_openVertex hw (h.frame_mem f hf)

/-- A vertex that every frame reaches can be opened. -/
theorem Sound.openVertex (hreach : ∀ f ∈ s.frames, adj.Reaches f.vertex w) :
    Sound adj (openVertex adj w s) where
  opened_iff v := by
    show _ ↔ v ∈ w :: s.stack ∨ v ∈ s.emitted.flatten
    rw [List.mem_cons]
    by_cases hv : v = w
    · subst hv
      simp [number?_openVertex_self]
    · rw [number?_openVertex_of_ne hv, h.opened_iff v]
      simp [hv]
  nodup := by
    show (w :: (s.stack ++ s.emitted.flatten)).Nodup
    refine List.nodup_cons.2 ⟨fun hmem => ?_, h.nodup⟩
    exact (h.opened_iff w).2 (List.mem_append.1 hmem) hw
  number_lt v hv := by
    show _ < s.opened + 1
    rcases List.mem_cons.1 hv with rfl | hv
    · rw [number_openVertex_self]
      exact Nat.lt_succ_self _
    · rw [h.number_openVertex hw hv]
      exact Nat.lt_succ_of_lt (h.number_lt v hv)
  descending := by
    refine List.pairwise_cons.2 ⟨fun v hv => ?_, ?_⟩
    · rw [number_openVertex_self, h.number_openVertex hw hv]
      exact h.number_lt v hv
    · refine h.descending.imp_of_mem fun hu hv hlt => ?_
      rw [h.number_openVertex hw hu, h.number_openVertex hw hv]
      exact hlt
  emission := h.emission
  frame_mem f hf := by
    rcases List.mem_cons.1 hf with rfl | hf
    · exact List.mem_cons_self ..
    · exact List.mem_cons_of_mem _ (h.frame_mem f hf)
  frames_descending := by
    refine List.pairwise_cons.2 ⟨fun f hf => ?_, ?_⟩
    · rw [number_openVertex_self, h.number_openVertex_frame hw hf]
      exact h.number_lt _ (h.frame_mem f hf)
    · refine h.frames_descending.imp_of_mem fun hf hg hlt => ?_
      rw [h.number_openVertex_frame hw hf, h.number_openVertex_frame hw hg]
      exact hlt
  pending_edge f hf := by
    rcases List.mem_cons.1 hf with rfl | hf
    · exact fun v hv => hv
    · exact h.pending_edge f hf
  low_le f hf := by
    rcases List.mem_cons.1 hf with rfl | hf
    · exact Nat.le_of_eq (number_openVertex_self s w).symm
    · rw [h.number_openVertex_frame hw hf]
      exact h.low_le f hf
  low_reached f hf := by
    rcases List.mem_cons.1 hf with rfl | hf
    · exact ⟨w, List.mem_cons_self .., number_openVertex_self s w, Adjacency.reaches_refl w⟩
    · obtain ⟨u, hu, hnum, hfu⟩ := h.low_reached f hf
      exact ⟨u, List.mem_cons_of_mem _ hu, (h.number_openVertex hw hu).trans hnum, hfu⟩
  above f hf u hu hle := by
    rcases List.mem_cons.1 hu with rfl | hold
    · rcases List.mem_cons.1 hf with rfl | hf
      · exact Adjacency.reaches_refl u
      · exact hreach f hf
    rcases List.mem_cons.1 hf with rfl | hf
    · -- Nothing on the old stack has a number as high as the new one.
      rw [number_openVertex_self, h.number_openVertex hw hold] at hle
      exact absurd (h.number_lt u hold) (Nat.not_lt.2 hle)
    · rw [h.number_openVertex_frame hw hf, h.number_openVertex hw hold] at hle
      exact h.above f hf u hold hle
  retreat u hu hne := by
    rcases List.mem_cons.1 hu with rfl | hu
    · exact absurd rfl (hne _ (List.mem_cons_self ..))
    · obtain ⟨v, hv, hlt, huv⟩ :=
        h.retreat u hu fun f hf => hne f (List.mem_cons_of_mem _ hf)
      refine ⟨v, List.mem_cons_of_mem _ hv, ?_, huv⟩
      rw [h.number_openVertex hw hu, h.number_openVertex hw hv]
      exact hlt

/-- Opening a vertex looks after the edges to it; the other edges must have been looked after. -/
theorem Sound.invariant_openVertex (hreach : ∀ f ∈ s.frames, adj.Reaches f.vertex w)
    (htended : ∀ f ∈ s.frames, ∀ u ∈ s.stack, s.number f.vertex ≤ s.number u →
      ∀ v, adj.Edge u v → v ≠ w → v ∉ s.emitted.flatten → s.Tended f u v) :
    Invariant adj (Search.openVertex adj w s) := by
  refine ⟨h.openVertex hw hreach, fun f hf u hu hle v hv hout => ?_⟩
  have hself : (Search.openVertex adj w s).number w = s.opened := number_openVertex_self s w
  have hbelow : (Search.openVertex adj w s).number f.vertex ≤ s.opened :=
    Nat.lt_succ_iff.1 ((h.openVertex hw hreach).number_lt _
      ((h.openVertex hw hreach).frame_mem f hf))
  by_cases hvw : v = w
  · subst hvw
    exact ⟨_, List.mem_cons_self .., hself.symm ▸ hbelow,
      Or.inl ⟨List.mem_cons_self .., Nat.le_of_eq hself.symm⟩⟩
  rcases List.mem_cons.1 hu with rfl | hu
  · exact ⟨_, List.mem_cons_self .., hself.symm ▸ hbelow, Or.inr ⟨rfl, hv⟩⟩
  rcases List.mem_cons.1 hf with rfl | hf
  · rw [hself, h.number_openVertex hw hu] at hle
    exact absurd (h.number_lt u hu) (Nat.not_lt.2 hle)
  rw [h.number_openVertex_frame hw hf, h.number_openVertex hw hu] at hle
  obtain ⟨g, hg, hfg, hcase⟩ := htended f hf u hu hle v hv hvw hout
  refine ⟨g, List.mem_cons_of_mem _ hg, ?_, ?_⟩
  · rw [h.number_openVertex_frame hw hf, h.number_openVertex_frame hw hg]
    exact hfg
  · refine hcase.imp (fun ⟨hmem, hlow⟩ => ⟨List.mem_cons_of_mem _ hmem, ?_⟩) id
    rw [h.number_openVertex hw hmem]
    exact hlow

end Open

/-! ### Changing the innermost frame -/

/-- Frames can be dropped, lowered to a number their vertex reaches, and robbed of targets, as long
as the dropped vertices have a path to a lower one. -/
theorem Sound.withFrames {s : Search n} (h : Sound adj s) {fs : List (Frame n)}
    (hvertices : (fs.map Frame.vertex).Sublist (s.frames.map Frame.vertex))
    (hpending : ∀ f ∈ fs, ∀ w ∈ f.pending, adj.Edge f.vertex w)
    (hlow : ∀ f ∈ fs, f.low ≤ s.number f.vertex ∧
      ∃ u ∈ s.stack, s.number u = f.low ∧ adj.Reaches f.vertex u)
    (hretreat : ∀ g ∈ s.frames, (∀ f ∈ fs, f.vertex ≠ g.vertex) →
      ∃ v ∈ s.stack, s.number v < s.number g.vertex ∧ adj.Reaches g.vertex v) :
    Sound adj { s with frames := fs } := by
  have hmem : ∀ f ∈ fs, ∃ g ∈ s.frames, g.vertex = f.vertex := fun f hf =>
    List.mem_map.1 (hvertices.subset (List.mem_map_of_mem hf))
  have hdesc : (s.frames.map Frame.vertex).Pairwise fun u v => s.number v < s.number u :=
    List.pairwise_map.2 h.frames_descending
  exact {
    opened_iff := h.opened_iff
    nodup := h.nodup
    number_lt := h.number_lt
    descending := h.descending
    emission := h.emission
    frame_mem := fun f hf => by
      obtain ⟨g, hg, hgf⟩ := hmem f hf
      exact hgf ▸ h.frame_mem g hg
    frames_descending := List.pairwise_map.1 (hdesc.sublist hvertices)
    pending_edge := hpending
    low_le := fun f hf => (hlow f hf).1
    low_reached := fun f hf => (hlow f hf).2
    above := fun f hf u hu hle => by
      obtain ⟨g, hg, hgf⟩ := hmem f hf
      exact hgf ▸ h.above g hg u hu (hgf ▸ hle)
    retreat := fun u hu hne => by
      by_cases hframe : ∀ g ∈ s.frames, g.vertex ≠ u
      · exact h.retreat u hu hframe
      · obtain ⟨g, hg, hgu⟩ : ∃ g ∈ s.frames, g.vertex = u := by simpa using hframe
        exact hgu ▸ hretreat g hg fun f hf hfg => hne f hf (hfg.trans hgu) }

section Innermost

variable {s : Search n} {f : Frame n} {rest : List (Frame n)} (hframes : s.frames = f :: rest)
include hframes

theorem innermost_mem : f ∈ s.frames := hframes ▸ List.mem_cons_self ..

theorem mem_of_mem_rest {g : Frame n} (hg : g ∈ rest) : g ∈ s.frames :=
  hframes ▸ List.mem_cons_of_mem _ hg

theorem Sound.dropInnermost (h : Sound adj s)
    (hlower : ∃ v ∈ s.stack, s.number v < s.number f.vertex ∧ adj.Reaches f.vertex v) :
    Sound adj { s with frames := rest } := by
  have hmem : ∀ g ∈ rest, g ∈ s.frames := fun g hg => mem_of_mem_rest hframes hg
  refine h.withFrames ?_ (fun g hg => h.pending_edge g (hmem g hg))
    (fun g hg => ⟨h.low_le g (hmem g hg), h.low_reached g (hmem g hg)⟩) fun g hg hne => ?_
  · rw [hframes]
    exact List.sublist_cons_self ..
  · rcases List.mem_cons.1 (hframes ▸ hg) with rfl | hg
    · exact hlower
    · exact absurd rfl (hne g hg)

theorem Sound.replaceInnermost (h : Sound adj s) {k : Nat} {ws : List (Fin n)} (hk : k ≤ f.low)
    (hws : ws ⊆ f.pending)
    (hreached : ∃ u ∈ s.stack, s.number u = k ∧ adj.Reaches f.vertex u) :
    Sound adj { s with frames := ⟨f.vertex, k, ws⟩ :: rest } := by
  have hf := innermost_mem hframes
  have hmem : ∀ g ∈ rest, g ∈ s.frames := fun g hg => mem_of_mem_rest hframes hg
  refine h.withFrames ?_ (fun g hg => ?_) (fun g hg => ?_) fun g hg hne => ?_
  · rw [hframes]
    exact List.Sublist.refl _
  · rcases List.mem_cons.1 hg with rfl | hg
    · exact fun w hw => h.pending_edge f hf w (hws hw)
    · exact h.pending_edge g (hmem g hg)
  · rcases List.mem_cons.1 hg with rfl | hg
    · exact ⟨Nat.le_trans hk (h.low_le f hf), hreached⟩
    · exact ⟨h.low_le g (hmem g hg), h.low_reached g (hmem g hg)⟩
  · rcases List.mem_cons.1 (hframes ▸ hg) with rfl | hg
    · exact absurd rfl (hne ⟨g.vertex, k, ws⟩ (List.mem_cons_self ..))
    · exact absurd rfl (hne g (List.mem_cons_of_mem _ hg))

/-- Replacing the innermost frame keeps the vertices of the frames. -/
theorem exists_frame_of_replaced {k : Nat} {ws : List (Fin n)} {g : Frame n}
    (hg : g ∈ (⟨f.vertex, k, ws⟩ :: rest : List (Frame n))) :
    ∃ e ∈ s.frames, g.vertex = e.vertex := by
  rcases List.mem_cons.1 hg with rfl | hg
  · exact ⟨f, innermost_mem hframes, rfl⟩
  · exact ⟨g, mem_of_mem_rest hframes hg, rfl⟩

/-- The edges stay looked after where the frame has been lowered for every target taken from it. -/
theorem Tended.replaceInnermost {k : Nat} {ws : List (Fin n)} (hk : k ≤ f.low) {e e' : Frame n}
    (he : e'.vertex = e.vertex) {u v : Fin n} (h : s.Tended e u v)
    (hv : v ∈ f.pending → v ∈ ws ∨ v ∈ s.stack ∧ k ≤ s.number v) :
    Tended { s with frames := ⟨f.vertex, k, ws⟩ :: rest } e' u v := by
  obtain ⟨g, hg, heg, hcase⟩ := h
  rw [← he] at heg
  rcases List.mem_cons.1 (hframes ▸ hg) with rfl | hg
  · refine ⟨_, List.mem_cons_self .., heg, ?_⟩
    rcases hcase with ⟨hstack, hlow⟩ | ⟨hgu, hpending⟩
    · exact Or.inl ⟨hstack, Nat.le_trans hk hlow⟩
    · exact (hv hpending).elim (fun hws => Or.inr ⟨hgu, hws⟩) Or.inl
  · exact ⟨g, List.mem_cons_of_mem _ hg, heg, hcase⟩

end Innermost

end Search

end SelfReference
