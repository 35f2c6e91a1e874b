import SelfReference.Proofs.ChangeCounts
import SelfReference.Proofs.Cycles

/-!
# Graphs inside graphs

One graph lies inside another along a map of names if the map keeps its names apart and takes every
sentence to a sentence that says the same about the mapped names.  What the larger graph holds
besides cannot be reached from there: paths, cycles, the values of every round and the change counts
are those of the smaller graph.
-/

namespace SelfReference

/-- The formula with another name at every reference. -/
def Formula.rename (r : String → String) : Formula → Formula
  | lit t => lit t
  | ref n => ref (r n)
  | neg f => neg (f.rename r)
  | conj f g => conj (f.rename r) (g.rename r)
  | disj f g => disj (f.rename r) (g.rename r)

namespace Formula

theorem occurrences_rename (r : String → String) (f : Formula) :
    (f.rename r).occurrences = f.occurrences.map r := by
  induction f with
  | lit t => rfl
  | ref n => rfl
  | neg f ih => exact ih
  | conj f g ihf ihg => simp only [rename, occurrences, List.map_append, ihf, ihg]
  | disj f g ihf ihg => simp only [rename, occurrences, List.map_append, ihf, ihg]

theorem rename_id (f : Formula) : f.rename id = f := by
  induction f with
  | lit t => rfl
  | ref n => rfl
  | neg f ih => rw [rename, ih]
  | conj f g ihf ihg => rw [rename, ihf, ihg]
  | disj f g ihf ihg => rw [rename, ihf, ihg]

theorem eval_rename (c : Connectives) (v : Valuation) (r : String → String) (f : Formula) :
    (f.rename r).eval c v = f.eval c fun n => v (r n) := by
  induction f with
  | lit t => rfl
  | ref n => rfl
  | neg f ih => simp only [rename, eval, ih]
  | conj f g ihf ihg => simp only [rename, eval, ihf, ihg]
  | disj f g ihf ihg => simp only [rename, eval, ihf, ihg]

end Formula

namespace SentenceGraph

structure EmbedsVia (r : String → String) (h g : SentenceGraph) : Prop where
  injOn : Set.InjOn r {n | n ∈ h.names}
  formula? : ∀ n f, h.formula? n = some f → g.formula? (r n) = some (f.rename r)

namespace EmbedsVia

variable {r : String → String} {h g : SentenceGraph} (e : EmbedsVia r h g) {a b n : String}
include e

theorem mem_names (hn : n ∈ h.names) : r n ∈ g.names := by
  obtain ⟨f, hf⟩ := SentenceGraph.mem_names_iff.1 hn
  exact SentenceGraph.mem_names_iff.2 ⟨_, e.formula? n f hf⟩

/-! ### Paths and cycles -/

theorem refers_iff (ha : a ∈ h.names) :
    g.sentences.Refers (r a) b ↔ ∃ c, h.sentences.Refers a c ∧ r c = b := by
  obtain ⟨f, hf⟩ := SentenceGraph.mem_names_iff.1 ha
  have hg : g.sentences.get? (r a) = some (f.rename r) := e.formula? a f hf
  have hh : h.sentences.get? a = some f := hf
  constructor
  · rintro ⟨f', hf', hb⟩
    obtain rfl : f.rename r = f' := Option.some.inj (hg.symm.trans hf')
    rw [Formula.occurrences_rename, List.mem_map] at hb
    obtain ⟨c, hc, rfl⟩ := hb
    exact ⟨c, ⟨f, hh, hc⟩, rfl⟩
  · rintro ⟨c, ⟨f', hf', hc⟩, rfl⟩
    obtain rfl : f = f' := Option.some.inj (hh.symm.trans hf')
    refine ⟨_, hg, ?_⟩
    rw [Formula.occurrences_rename]
    exact List.mem_map_of_mem hc

theorem dependsOn_image (hab : h.DependsOn a b) : g.DependsOn (r a) (r b) := by
  refine Relation.TransGen.lift r (fun c d hcd => ?_) _ _ hab
  exact (e.refers_iff (h.mem_names_of_refers hcd).1).2 ⟨d, hcd, rfl⟩

/-- Paths never leave the smaller graph. -/
theorem exists_dependsOn (ha : a ∈ h.names) (hab : g.DependsOn (r a) b) :
    ∃ c, h.DependsOn a c ∧ r c = b := by
  -- the end of a path so far is an image, and all it refers to are images
  induction hab with
  | single hedge =>
    obtain ⟨c, hac, hc⟩ := (e.refers_iff ha).1 hedge
    exact ⟨c, .single hac, hc⟩
  | tail _ hedge ih =>
    obtain ⟨c, hac, rfl⟩ := ih
    have hc : c ∈ h.names := (h.mem_names_of_dependsOn hac).2
    obtain ⟨d, hcd, hd⟩ := (e.refers_iff hc).1 hedge
    exact ⟨d, hac.tail hcd, hd⟩

theorem dependsOn_iff (ha : a ∈ h.names) (hb : b ∈ h.names) :
    g.DependsOn (r a) (r b) ↔ h.DependsOn a b := by
  refine ⟨fun hab => ?_, e.dependsOn_image⟩
  obtain ⟨c, hac, hcb⟩ := e.exists_dependsOn ha hab
  have hc : c ∈ h.names := (h.mem_names_of_dependsOn hac).2
  obtain rfl : c = b := e.injOn hc hb hcb
  exact hac

theorem shareCycle_eq (ha : a ∈ h.names) (hb : b ∈ h.names) :
    g.shareCycle (r a) (r b) = h.shareCycle a b := by
  rw [Bool.eq_iff_iff, shareCycle_iff, shareCycle_iff, e.dependsOn_iff ha hb, e.dependsOn_iff hb ha]

theorem isCyclic_eq (ha : a ∈ h.names) : g.isCyclic (r a) = h.isCyclic a := by
  rw [Bool.eq_iff_iff, isCyclic_iff_shareCycle, isCyclic_iff_shareCycle, e.shareCycle_eq ha ha]

/-! ### Rounds -/

variable (s : Solver)

/-- Sentences that see the same values of the smaller graph read the same values of it. -/
theorem reading_eq {x y : Assignment} (hxy : ∀ m ∈ h.names, y.valueOf (r m) = x.valueOf m)
    (ha : a ∈ h.names) (hb : b ∈ h.names) :
    s.reading g (r a) y (r b) = s.reading h a x b := by
  unfold Solver.reading
  cases s.config.grounding with
  | openWorld => exact hxy b hb
  | closedWorld =>
    show Solver.cycleClosed g (r a) y (r b) = Solver.cycleClosed h a x b
    have hclosed : y.closed (r b) = x.closed b := by
      unfold Assignment.closed
      rw [hxy b hb]
    unfold Solver.cycleClosed
    rw [e.shareCycle_eq ha hb, hclosed, hxy b hb]

theorem valueOf_step_eq {x y : Assignment} (hxy : ∀ m ∈ h.names, y.valueOf (r m) = x.valueOf m)
    (hn : n ∈ h.names) : (s.step g y).next.valueOf (r n) = (s.step h x).next.valueOf n := by
  obtain ⟨f, hf⟩ := SentenceGraph.mem_names_iff.1 hn
  have heval : f.eval s.connectives (fun m => s.reading g (r n) y (r m)) =
      f.eval s.connectives (s.reading h n x) := by
    refine Formula.eval_congr _ f fun m hm => e.reading_eq s hxy hn ?_
    exact h.resolved n f hf m (Sentences.mem_references_iff.2 hm)
  rw [s.valueOf_step (e.formula? n f hf), s.valueOf_step hf, Formula.eval_rename, heval, hxy n hn]

/-- After every number of rounds the larger graph gives the sentences of the smaller one the values
that the smaller graph gives them. -/
theorem valueOf_afterRounds (k : Nat) (hn : n ∈ h.names) :
    (s.afterRounds g g.bottom k).valueOf (r n) = (s.afterRounds h h.bottom k).valueOf n := by
  induction k generalizing n with
  | zero => exact (g.valueOf_bottom (r n)).trans (h.valueOf_bottom n).symm
  | succ k ih => exact e.valueOf_step_eq s (fun m hm => ih hm) hn

theorem get?_afterRounds (k : Nat) (hn : n ∈ h.names) :
    (s.afterRounds g g.bottom k).get? (r n) = (s.afterRounds h h.bottom k).get? n := by
  have hsmall : n ∈ (s.afterRounds h h.bottom k).names := by
    rw [s.names_afterRounds h.names_bottom]
    exact hn
  have hlarge : r n ∈ (s.afterRounds g g.bottom k).names := by
    rw [s.names_afterRounds g.names_bottom]
    exact e.mem_names hn
  rw [Assignment.get?_eq_some_valueOf hlarge, Assignment.get?_eq_some_valueOf hsmall,
    e.valueOf_afterRounds s k hn]

theorem get?_changesAfter (k : Nat) (hn : n ∈ h.names) :
    (Run.changesAfter s g k).get? (r n) = (Run.changesAfter s h k).get? n := by
  induction k with
  | zero => rfl
  | succ k ih =>
    rw [Run.get?_changesAfter_succ, Run.get?_changesAfter_succ, ih,
      e.valueOf_afterRounds s (k + 1) hn, e.valueOf_afterRounds s k hn]
    exact if_congr (by simp [hn, e.mem_names hn]) rfl rfl

/-- A round that changes nothing in the larger graph changes nothing in the smaller one. -/
theorem mem_stableAfter {R : Nat} (hR : R ∈ s.stableAfter g g.bottom) :
    R ∈ s.stableAfter h h.bottom := by
  refine ⟨hR.1, ?_⟩
  refine s.afterRounds_ext h.names_bottom fun n hn => ?_
  rw [← e.valueOf_afterRounds s R hn, ← e.valueOf_afterRounds s (R - 1) hn, hR.2]

/-! ### Solutions -/

/-- Solving the larger graph takes at least as many rounds and gives the sentences of the smaller
one the values and the change counts that solving the smaller one gives them. -/
theorem exists_solutions {s : Solver} (hverify : s.verify = .ok ())
    (hbound : s.config.maxIterations = none) :
    ∃ large small, s.solve g = .ok large ∧ s.solve h = .ok small ∧ small.rounds ≤ large.rounds ∧
      ∀ n ∈ h.names, large.assignment.get? (r n) = small.assignment.get? n ∧
        large.metrics.changes.get? (r n) = small.metrics.changes.get? n := by
  obtain ⟨R, hR, hlarge⟩ := Solver.solve_eq_solution hverify hbound g
  obtain ⟨R', hR', hsmall⟩ := Solver.solve_eq_solution hverify hbound h
  have hmem : R ∈ s.stableAfter h h.bottom := e.mem_stableAfter s hR.1
  have hle : R' ≤ R := hR'.2 hmem
  have hsize (n : String) (hn : n ∈ h.names) : h.size ≠ 0 ∧ g.size ≠ 0 := by
    refine ⟨fun hzero => ?_, fun hzero => ?_⟩
    · exact List.not_mem_nil (h.names_eq_nil hzero ▸ hn)
    · exact List.not_mem_nil (g.names_eq_nil hzero ▸ e.mem_names hn)
  refine ⟨_, _, hlarge, hsmall, ?_, fun n hn => ?_⟩
  · show (Run.after s h _).metrics.rounds ≤ (Run.after s g _).metrics.rounds
    rw [Run.rounds_after, Run.rounds_after]
    by_cases hzero : h.size = 0
    · rw [if_pos hzero]
      exact Nat.zero_le _
    · obtain ⟨n, hn⟩ : ∃ n, n ∈ h.names := by
        refine List.exists_mem_of_length_pos ?_
        rw [h.length_names]
        omega
      rw [if_neg hzero, if_neg (hsize n hn).2]
      exact hle
  · obtain ⟨hsizeSmall, hsizeLarge⟩ := hsize n hn
    rw [if_neg hsizeLarge, if_neg hsizeSmall]
    show (Run.after s g R).current.get? (r n) = (Run.after s h R').current.get? n ∧
      (Run.changesAfter s g R).get? (r n) = (Run.changesAfter s h R').get? n
    -- the smaller graph stands still from its own last round on
    rw [Run.current_after, Run.current_after, e.get?_afterRounds s R hn, e.get?_changesAfter s R hn,
      s.afterRounds_eq_of_le hR'.1 hle, Run.changesAfter_eq_of_le s h hR'.1 hle]
    exact ⟨rfl, rfl⟩

end EmbedsVia

end SentenceGraph

end SelfReference
