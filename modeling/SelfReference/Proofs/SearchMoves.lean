import SelfReference.Proofs.SearchInvariant

/-!
# The moves of a search

Every move keeps the invariant: following an edge opens its end, lowers the frame or passes over a
closed component; leaving a frame hands its number on or closes a component.
-/

namespace SelfReference

variable {n : Nat} {adj : Adjacency n}

namespace Search

/-! ### Following an edge -/

section Follow

variable {s : Search n} {v w : Fin n} {low : Nat} {ws : List (Fin n)} {rest : List (Frame n)}
  (h : Invariant adj s) (hframes : s.frames = ⟨v, low, w :: ws⟩ :: rest)
include h hframes

theorem Invariant.edge_pending : adj.Edge v w :=
  h.pending_edge _ (innermost_mem hframes) w (List.mem_cons_self ..)

/-- An edge to a vertex of the stack is looked after by lowering the frame. -/
theorem Invariant.follow_of_mem_stack (hw : w ∈ s.stack) :
    Invariant adj { s with frames := ⟨v, min low (s.number w), ws⟩ :: rest } := by
  have hle : min low (s.number w) ≤ low := Nat.min_le_left ..
  refine ⟨h.toSound.replaceInnermost hframes hle (List.subset_cons_self ..) ?_,
    fun f hf u hu hfu x hx hout => ?_⟩
  · rcases Nat.le_total low (s.number w) with hlow | hlow
    · rw [Nat.min_eq_left hlow]
      exact h.low_reached _ (innermost_mem hframes)
    · rw [Nat.min_eq_right hlow]
      exact ⟨w, hw, rfl, Relation.ReflTransGen.single (h.edge_pending hframes)⟩
  · obtain ⟨e, he, hfe⟩ := exists_frame_of_replaced hframes hf
    refine (h.tended e he u hu (hfe ▸ hfu) x hx hout).replaceInnermost hframes hle hfe fun hp => ?_
    rcases List.mem_cons.1 hp with rfl | hp
    · exact Or.inr ⟨hw, Nat.min_le_right ..⟩
    · exact Or.inl hp

/-- An edge to a closed component is passed over. -/
theorem Invariant.follow_of_mem_emitted (hw : w ∈ s.emitted.flatten) :
    Invariant adj { s with frames := ⟨v, low, ws⟩ :: rest } := by
  refine ⟨h.toSound.replaceInnermost hframes (Nat.le_refl low) (List.subset_cons_self ..)
    (h.low_reached _ (innermost_mem hframes)), fun f hf u hu hfu x hx hout => ?_⟩
  obtain ⟨e, he, hfe⟩ := exists_frame_of_replaced hframes hf
  refine (h.tended e he u hu (hfe ▸ hfu) x hx hout).replaceInnermost hframes (Nat.le_refl low) hfe
    fun hp => ?_
  rcases List.mem_cons.1 hp with rfl | hp
  · exact absurd hw hout
  · exact Or.inl hp

/-- An edge to an unopened vertex opens it. -/
theorem Invariant.follow_of_unopened (hw : s.number? w = none) :
    Invariant adj (Search.openVertex adj w { s with frames := ⟨v, low, ws⟩ :: rest }) := by
  have hsound : Sound adj { s with frames := ⟨v, low, ws⟩ :: rest } :=
    h.toSound.replaceInnermost hframes (Nat.le_refl low) (List.subset_cons_self ..)
      (h.low_reached _ (innermost_mem hframes))
  refine hsound.invariant_openVertex hw (fun f hf => ?_) fun f hf u hu hfu x hx hne hout => ?_
  · -- Every frame reaches the innermost one, and that one has the edge.
    obtain ⟨e, he, hfe⟩ := exists_frame_of_replaced hframes hf
    have hev : adj.Reaches e.vertex v :=
      h.above e he v (h.frame_mem _ (innermost_mem hframes)) (h.number_le_innermost hframes he)
    exact hfe ▸ hev.tail (h.edge_pending hframes)
  · obtain ⟨e, he, hfe⟩ := exists_frame_of_replaced hframes hf
    refine (h.tended e he u hu (hfe ▸ hfu) x hx hout).replaceInnermost hframes (Nat.le_refl low)
      hfe fun hp => ?_
    exact Or.inl ((List.mem_cons.1 hp).resolve_left hne)

theorem Invariant.follow : Invariant adj (Search.follow adj v low w ws rest s) := by
  unfold Search.follow
  split
  · rename_i hw
    exact h.follow_of_unopened hframes hw
  · rename_i k hw
    have hopened : s.number? w ≠ none := fun hnone => Option.some_ne_none k (hw.symm.trans hnone)
    split
    · rename_i hstack
      rw [← (number?_eq_some_iff hopened).1 hw]
      exact h.follow_of_mem_stack hframes hstack
    · rename_i hstack
      exact h.follow_of_mem_emitted hframes (((h.opened_iff w).1 hopened).resolve_left hstack)

end Follow

/-! ### Leaving a frame -/

theorem mem_cutBelow {num : Fin n → Nat} {v : Fin n} {l : List (Fin n)}
    (hl : l.Pairwise fun a b => num b < num a) (hv : v ∈ l) (u : Fin n) :
    (u ∈ (cutBelow v l).1 ↔ u ∈ l ∧ num v ≤ num u) ∧
      (u ∈ (cutBelow v l).2 ↔ u ∈ l ∧ num u < num v) := by
  induction l with
  | nil => exact absurd hv List.not_mem_nil
  | cons w ws ih =>
    obtain ⟨hlt, hws⟩ := List.pairwise_cons.1 hl
    unfold cutBelow
    split
    · rename_i hwv
      subst hwv
      refine ⟨?_, fun h => ⟨List.mem_cons_of_mem _ h, hlt u h⟩, fun h => ?_⟩
      · rw [List.mem_singleton]
        refine ⟨fun h => h ▸ ⟨List.mem_cons_self .., Nat.le_refl _⟩, fun h => ?_⟩
        exact (List.mem_cons.1 h.1).resolve_right fun hu => Nat.not_lt.2 h.2 (hlt u hu)
      · exact (List.mem_cons.1 h.1).resolve_left fun hu => Nat.lt_irrefl _ (hu ▸ h.2)
    · rename_i hwv
      have hvws : v ∈ ws := (List.mem_cons.1 hv).resolve_left (Ne.symm hwv)
      have hvw : num v < num w := hlt v hvws
      obtain ⟨hupper, hlower⟩ := ih hws hvws
      refine ⟨?_, hlower.trans ⟨fun h => ⟨List.mem_cons_of_mem _ h.1, h.2⟩, fun h => ?_⟩⟩
      · rw [List.mem_cons, List.mem_cons, hupper, or_and_right]
        exact or_congr_left ⟨fun hu => ⟨hu, hu ▸ Nat.le_of_lt hvw⟩, And.left⟩
      · exact ⟨(List.mem_cons.1 h.1).resolve_left fun hu => Nat.lt_asymm h.2 (hu ▸ hvw), h.2⟩

section Cut

variable {s : Search n} (h : Sound adj s) {v : Fin n} (hv : v ∈ s.stack) {u : Fin n}
include h hv

theorem Sound.mem_cutBelow_fst_iff :
    u ∈ (cutBelow v s.stack).1 ↔ u ∈ s.stack ∧ s.number v ≤ s.number u :=
  (mem_cutBelow h.descending hv u).1

theorem Sound.mem_cutBelow_snd_iff :
    u ∈ (cutBelow v s.stack).2 ↔ u ∈ s.stack ∧ s.number u < s.number v :=
  (mem_cutBelow h.descending hv u).2

end Cut

theorem mem_cutBelow_or (v : Fin n) {l : List (Fin n)} {u : Fin n} :
    u ∈ l ↔ u ∈ (cutBelow v l).1 ∨ u ∈ (cutBelow v l).2 := by
  rw [← List.mem_append, cutBelow_append]

theorem cutBelow_snd_sublist (v : Fin n) (l : List (Fin n)) : (cutBelow v l).2.Sublist l := by
  have hsublist := List.sublist_append_right (cutBelow v l).1 (cutBelow v l).2
  rwa [cutBelow_append] at hsublist

section Close

variable {s : Search n} {f : Frame n} {rest : List (Frame n)} (h : Invariant adj s)
  (hframes : s.frames = f :: rest) (hpending : f.pending = [])
include h hframes hpending

/-- A frame that has met a lower number hands it on. -/
theorem Invariant.handOn (hlow : f.low < s.number f.vertex) :
    Invariant adj { s with frames := lowerInnermost f.low rest } := by
  have hf := innermost_mem hframes
  obtain ⟨x, hx, hxlow, hfx⟩ := h.low_reached f hf
  have hdropped : Sound adj { s with frames := rest } :=
    h.toSound.dropInnermost hframes ⟨x, hx, hxlow ▸ hlow, hfx⟩
  cases rest with
  | nil => exact ⟨hdropped, fun _ hg => absurd hg List.not_mem_nil⟩
  | cons p rest =>
    have hp : p ∈ s.frames := mem_of_mem_rest hframes (List.mem_cons_self ..)
    have hle : min p.low f.low ≤ p.low := Nat.min_le_left ..
    refine ⟨hdropped.replaceInnermost rfl hle (List.Subset.refl _) ?_, ?_⟩
    · rcases Nat.le_total p.low f.low with hpf | hpf
      · rw [Nat.min_eq_left hpf]
        exact h.low_reached p hp
      · rw [Nat.min_eq_right hpf]
        have hreach : adj.Reaches p.vertex f.vertex :=
          h.above p hp _ (h.frame_mem f hf) (h.number_le_innermost hframes hp)
        exact ⟨x, hx, hxlow, hreach.trans hfx⟩
    · intro e' he' u hu heu v hv hout
      obtain ⟨e, he, hvertex⟩ :=
        exists_frame_of_replaced (s := { s with frames := p :: rest }) rfl he'
      obtain ⟨g, hg, heg, hcase⟩ :=
        h.tended e (mem_of_mem_rest hframes he) u hu (hvertex ▸ heu) v hv hout
      rcases List.mem_cons.1 (hframes ▸ hg) with rfl | hg
      · -- What lowered the finished frame lowers the frame below it.
        rcases hcase with ⟨hstack, hlowv⟩ | ⟨-, hmem⟩
        · refine ⟨_, List.mem_cons_self .., ?_, Or.inl ⟨hstack, ?_⟩⟩
          · exact hvertex ▸ hdropped.number_le_innermost rfl he
          · exact Nat.le_trans (Nat.min_le_right ..) hlowv
        · exact absurd hmem (hpending ▸ List.not_mem_nil)
      · exact Tended.replaceInnermost (s := { s with frames := p :: rest }) rfl hle hvertex
          ⟨g, hg, heg, hcase⟩ Or.inl

/-- No edge leaves what lies above a frame finished at its own number. -/
theorem Invariant.target_mem_cutBelow (hlow : f.low = s.number f.vertex) {u : Fin n}
    (hu : u ∈ (cutBelow f.vertex s.stack).1 ∨ u ∈ s.emitted.flatten) {v : Fin n}
    (hv : adj.Edge u v) : v ∈ (cutBelow f.vertex s.stack).1 ∨ v ∈ s.emitted.flatten := by
  have hf := innermost_mem hframes
  have hmem := h.frame_mem f hf
  rcases hu with hu | hu
  · obtain ⟨hus, hfu⟩ := (h.mem_cutBelow_fst_iff hmem).1 hu
    by_cases hout : v ∈ s.emitted.flatten
    · exact Or.inr hout
    obtain ⟨g, hg, hfg, hcase⟩ := h.tended f hf u hus hfu v hv hout
    rcases List.mem_cons.1 (hframes ▸ hg) with rfl | hg
    · rcases hcase with ⟨hstack, hle⟩ | ⟨-, hgone⟩
      · exact Or.inl ((h.mem_cutBelow_fst_iff hmem).2 ⟨hstack, hlow ▸ hle⟩)
      · exact absurd hgone (hpending ▸ List.not_mem_nil)
    · exact absurd (h.number_lt_innermost hframes hg) (Nat.not_lt.2 hfg)
  · exact Or.inr (h.emission.target_mem hu hv)

/-- What lies above a frame finished at its own number has a path down to the frame. -/
theorem Invariant.reaches_of_mem_cutBelow (hlow : f.low = s.number f.vertex) {u : Fin n}
    (hu : u ∈ (cutBelow f.vertex s.stack).1) : adj.Reaches u f.vertex := by
  have hmem := h.frame_mem f (innermost_mem hframes)
  -- Strong induction on the discovery number: a vertex without a frame has a path to a lower one.
  induction hk : s.number u using Nat.strongRecOn generalizing u with
  | ind k ih =>
    obtain ⟨hus, hfu⟩ := (h.mem_cutBelow_fst_iff hmem).1 hu
    by_cases hframe : ∀ g ∈ s.frames, g.vertex ≠ u
    · obtain ⟨v, hvs, hlt, huv⟩ := h.retreat u hus hframe
      have hv : v ∈ (cutBelow f.vertex s.stack).1 := by
        have hkept := Adjacency.mem_of_reaches
          (fun _ _ hx hedge => h.target_mem_cutBelow hframes hpending hlow hx hedge)
          (Or.inl hu) huv
        exact hkept.resolve_right (h.disjoint hvs)
      exact huv.trans (ih (s.number v) (hk ▸ hlt) hv rfl)
    · obtain ⟨g, hg, rfl⟩ : ∃ g ∈ s.frames, g.vertex = u := by simpa using hframe
      have hgf := h.number_injOn hus hmem
        (Nat.le_antisymm (h.number_le_innermost hframes hg) hfu)
      exact hgf ▸ Adjacency.reaches_refl _

/-- A frame finished at its own number closes a component. -/
theorem Invariant.isClosedAfter (hlow : f.low = s.number f.vertex) :
    adj.IsClosedAfter s.emitted (cutBelow f.vertex s.stack).1 := by
  have hf := innermost_mem hframes
  have hmem := h.frame_mem f hf
  refine ⟨?_, fun u hu v hv => ?_, fun u hu v hv => ?_⟩
  · exact List.ne_nil_of_mem ((h.mem_cutBelow_fst_iff hmem).2 ⟨hmem, Nat.le_refl _⟩)
  · obtain ⟨hvs, hfv⟩ := (h.mem_cutBelow_fst_iff hmem).1 hv
    exact (h.reaches_of_mem_cutBelow hframes hpending hlow hu).trans (h.above f hf v hvs hfv)
  · exact h.target_mem_cutBelow hframes hpending hlow (Or.inl hu) hv

/-- The component leaves the stack together with its frame. -/
theorem Invariant.sound_closeComponent (hlow : f.low = s.number f.vertex) :
    Sound adj { s with
      frames := rest
      stack := (cutBelow f.vertex s.stack).2
      emitted := (cutBelow f.vertex s.stack).1 :: s.emitted } := by
  have hf := innermost_mem hframes
  have hrest : ∀ g ∈ rest, g ∈ s.frames := fun g hg => mem_of_mem_rest hframes hg
  have hmem := h.frame_mem f hf
  have hstack : ∀ u ∈ (cutBelow f.vertex s.stack).2, u ∈ s.stack := fun u hu =>
    ((h.mem_cutBelow_snd_iff hmem).1 hu).1
  have hlower : ∀ g ∈ rest, ∀ u ∈ s.stack, s.number u ≤ s.number g.vertex →
      u ∈ (cutBelow f.vertex s.stack).2 := fun g hg u hu hle =>
    (h.mem_cutBelow_snd_iff hmem).2
      ⟨hu, Nat.lt_of_le_of_lt hle (h.number_lt_innermost hframes hg)⟩
  exact {
    opened_iff := fun v => by
      show s.number? v ≠ none ↔ v ∈ (cutBelow f.vertex s.stack).2 ∨
        v ∈ (cutBelow f.vertex s.stack).1 ++ s.emitted.flatten
      rw [h.opened_iff v, mem_cutBelow_or f.vertex, List.mem_append, or_assoc, or_left_comm]
    nodup := by
      have hperm := List.perm_append_comm_assoc (cutBelow f.vertex s.stack).1
        (cutBelow f.vertex s.stack).2 s.emitted.flatten
      rw [← List.append_assoc, cutBelow_append] at hperm
      exact hperm.nodup_iff.1 h.nodup
    number_lt := fun u hu => h.number_lt u (hstack u hu)
    descending := h.descending.sublist (cutBelow_snd_sublist f.vertex s.stack)
    emission := .cons (h.isClosedAfter hframes hpending hlow) h.emission
    frame_mem := fun g hg => hlower g hg _ (h.frame_mem g (hrest g hg)) (Nat.le_refl _)
    frames_descending := (List.pairwise_cons.1 (hframes ▸ h.frames_descending)).2
    pending_edge := fun g hg => h.pending_edge g (hrest g hg)
    low_le := fun g hg => h.low_le g (hrest g hg)
    low_reached := fun g hg => by
      obtain ⟨u, hu, hnum, hgu⟩ := h.low_reached g (hrest g hg)
      exact ⟨u, hlower g hg u hu (hnum ▸ h.low_le g (hrest g hg)), hnum, hgu⟩
    above := fun g hg u hu hle => h.above g (hrest g hg) u (hstack u hu) hle
    retreat := fun u hu hne => by
      have hlt := ((h.mem_cutBelow_snd_iff hmem).1 hu).2
      obtain ⟨v, hv, hvu, huv⟩ := h.retreat u (hstack u hu) fun g hg hgu => by
        rcases List.mem_cons.1 (hframes ▸ hg) with rfl | hg
        · exact Nat.lt_irrefl _ (hgu ▸ hlt)
        · exact hne g hg hgu
      exact ⟨v, (h.mem_cutBelow_snd_iff hmem).2 ⟨hv, Nat.lt_trans hvu hlt⟩, hvu, huv⟩ }

theorem Invariant.closeComponent (hlow : f.low = s.number f.vertex) :
    Invariant adj { s with
      frames := rest
      stack := (cutBelow f.vertex s.stack).2
      emitted := (cutBelow f.vertex s.stack).1 :: s.emitted } := by
  have hmem := h.frame_mem f (innermost_mem hframes)
  refine ⟨h.sound_closeComponent hframes hpending hlow, fun e he u hu heu v hv hout => ?_⟩
  have hnew : v ∉ (cutBelow f.vertex s.stack).1 ∧ v ∉ s.emitted.flatten :=
    not_or.1 (mt List.mem_append.2 hout)
  obtain ⟨g, hg, heg, hcase⟩ := h.tended e (mem_of_mem_rest hframes he) u
    ((h.mem_cutBelow_snd_iff hmem).1 hu).1 heu v hv hnew.2
  rcases List.mem_cons.1 (hframes ▸ hg) with rfl | hg
  · rcases hcase with ⟨hstack, hle⟩ | ⟨-, hgone⟩
    · exact absurd ((h.mem_cutBelow_fst_iff hmem).2 ⟨hstack, hlow ▸ hle⟩) hnew.1
    · exact absurd hgone (hpending ▸ List.not_mem_nil)
  · refine ⟨g, hg, heg, hcase.imp_left fun hlowered => ⟨?_, hlowered.2⟩⟩
    exact ((mem_cutBelow_or f.vertex).1 hlowered.1).resolve_left hnew.1

theorem Invariant.closeFrame : Invariant adj (Search.closeFrame f rest s) := by
  have hf := innermost_mem hframes
  have hindex := number?_eq_some_iff (h.opened_of_mem (h.frame_mem f hf)) (k := f.low)
  unfold Search.closeFrame
  split
  · rename_i hroot
    have hlow : f.low = s.number f.vertex := (hindex.1 hroot).symm
    -- The frame below has met a number no higher than its own, so nothing is handed on.
    have hsame : lowerInnermost f.low rest = rest := by
      cases rest with
      | nil => rfl
      | cons p rest =>
        have hp := h.low_le p (mem_of_mem_rest hframes (List.mem_cons_self ..))
        have hpf := h.number_le_innermost hframes (mem_of_mem_rest hframes (List.mem_cons_self ..))
        show { p with low := min p.low f.low } :: rest = p :: rest
        rw [Nat.min_eq_left (hlow ▸ Nat.le_trans hp hpf)]
    rw [hsame]
    exact h.closeComponent hframes hpending hlow
  · rename_i hroot
    exact h.handOn hframes hpending
      (Nat.lt_of_le_of_ne (h.low_le f hf) fun heq => hroot (hindex.2 heq.symm))

end Close

/-! ### One move -/

theorem Invariant.move {s : Search n} (h : Invariant adj s) : Invariant adj (s.move adj) := by
  unfold Search.move
  split
  · exact h
  · rename_i hframes
    exact h.closeFrame hframes rfl
  · rename_i hframes
    exact h.follow hframes

end Search

end SelfReference
