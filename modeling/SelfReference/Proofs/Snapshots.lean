import SelfReference.Proofs.Embeddings
import SelfReference.Proofs.LeastFixedPoint

/-!
# Rounds from any snapshot

A round accepts any assignment, one that misses sentences or knows others too.  It sees of it only
the values of the sentences, and what it makes of it covers exactly the sentences, so after one
round the bound on rounds over the names of the graph applies.  That the first round may count names
it merely adds as changed costs no round more.  Under open grounding and monotone connectives the
rounds end in the least assignment above the snapshot that every formula is satisfied with.
-/

namespace SelfReference

/-- What an assignment tells of the sentences of a graph. -/
def SentenceGraph.view (g : SentenceGraph) (x : Assignment) : Assignment :=
  g.sentences.map fun n _ => x.valueOf n

namespace SentenceGraph

variable (g : SentenceGraph) (x : Assignment)

theorem names_view : (g.view x).names = g.names := NameMap.names_map ..

theorem valueOf_view {n : String} (hn : n ∈ g.names) : (g.view x).valueOf n = x.valueOf n := by
  obtain ⟨f, hf⟩ := mem_names_iff.1 hn
  refine Assignment.valueOf_eq_of_get? ?_
  rw [view, NameMap.get?_map, show g.sentences.get? n = some f from hf, Option.map_some]

/-- The view lies below whatever the snapshot lies below on the sentences. -/
theorem view_le {v : Valuation} (h : ∀ n ∈ g.names, x.valueOf n ≤ v n) :
    (g.view x).valueOf ≤ v := by
  refine Assignment.valueOf_le fun n hn => ?_
  rw [names_view] at hn
  rw [g.valueOf_view x hn]
  exact h n hn

theorem EmbedsVia.self : EmbedsVia id g g where
  injOn := Function.injective_id.injOn
  formula? n f hf := by
    rw [f.rename_id]
    exact hf

end SentenceGraph

namespace Solver

variable (s : Solver) (g : SentenceGraph)

/-- A round sees the values of the sentences only. -/
theorem next_step_congr {a b : Assignment} (h : ∀ n ∈ g.names, a.valueOf n = b.valueOf n) :
    (s.step g a).next = (s.step g b).next := by
  refine Assignment.ext_valueOf ((s.names_step g a).trans (s.names_step g b).symm) fun n hn => ?_
  rw [names_step] at hn
  exact (SentenceGraph.EmbedsVia.self g).valueOf_step_eq s h hn

theorem afterRounds_view (x : Assignment) (k : Nat) :
    s.afterRounds g (g.view x) (k + 1) = s.afterRounds g x (k + 1) := by
  induction k with
  | zero => exact s.next_step_congr g fun n hn => g.valueOf_view x hn
  | succ k ih => rw [afterRounds_succ s g (g.view x) (k + 1), ih, ← afterRounds_succ]

theorem changed_step_eq_nil_iff {a : Assignment} (ha : a.names = g.names) :
    (s.step g a).changed = [] ↔ (s.step g a).next = a := by
  rw [← s.isFixed_step_iff ha, Round.isFixed, List.isEmpty_iff]

theorem changed_step_eq_nil_of_size {a : Assignment} (h : g.size = 0) :
    (s.step g a).changed = [] := by
  refine List.eq_nil_iff_forall_not_mem.2 fun n hn => ?_
  obtain ⟨v, hv, -⟩ := Assignment.mem_changedSince.1 hn
  have hmem : n ∈ (s.step g a).next.names := (NameMap.mem_names_iff _).2 ⟨v, hv⟩
  rw [names_step, g.names_eq_nil h] at hmem
  exact List.not_mem_nil hmem

/-- Among the first rounds from any snapshot one changes nothing. -/
theorem exists_unchanged_round (x : Assignment) :
    ∃ k ≤ 2 * g.size, (s.step g (s.afterRounds g x k)).changed = [] := by
  obtain ⟨k, hk, hfixed⟩ := s.exists_fixed_round (g.names_view x)
  cases k with
  | succ k =>
    refine ⟨k + 1, hk, ?_⟩
    have hnames : (s.afterRounds g x (k + 1)).names = g.names := s.names_step g _
    rw [afterRounds_view, afterRounds_view] at hfixed
    rw [s.changed_step_eq_nil_iff g hnames, ← afterRounds_succ, hfixed]
  | zero =>
    -- the round only brings the snapshot to the names of the graph, and the next changes nothing
    by_cases hsize : g.size = 0
    · exact ⟨0, by omega, s.changed_step_eq_nil_of_size g hsize⟩
    · refine ⟨1, by omega, ?_⟩
      have hview : (s.step g (g.view x)).next = g.view x := hfixed
      have hfirst : s.afterRounds g x 1 = g.view x := by
        rw [← afterRounds_view]
        exact hview
      rw [hfirst, s.changed_step_eq_nil_iff g (g.names_view x), hview]

/-- A round without change ends in an assignment that no further round changes. -/
theorem step_next_of_changed_eq_nil {a : Assignment} (h : (s.step g a).changed = []) :
    s.step g (s.step g a).next = ⟨(s.step g a).next, []⟩ := by
  have hsame : ∀ n ∈ g.names, (s.step g a).next.valueOf n = a.valueOf n := by
    intro n hn
    rw [← s.names_step g a] at hn
    by_contra hne
    have hmem : n ∈ (s.step g a).changed :=
      Assignment.mem_changedSince.2 ⟨_, Assignment.get?_eq_some_valueOf hn, fun hget =>
        hne (Assignment.valueOf_eq_of_get? hget).symm⟩
    rw [h] at hmem
    exact List.not_mem_nil hmem
  have hnext : (s.step g (s.step g a).next).next = (s.step g a).next := s.next_step_congr g hsame
  have hchanged : (s.step g (s.step g a).next).changed = [] :=
    (s.changed_step_eq_nil_iff g (s.names_step g a)).2 hnext
  show Round.mk (s.step g (s.step g a).next).next (s.step g (s.step g a).next).changed = _
  rw [hnext, hchanged]

/-- From any assignment every round covers exactly the names of the graph and takes no evidence away,
and one of the first `2 * g.size + 1` rounds changes nothing, as no round after it does.  Under open
grounding and connectives without violations the assignment so reached is the least one over the
names of the graph that is above the start and that every formula is satisfied with. -/
theorem rounds_from_snapshot (s : Solver) (g : SentenceGraph) (x : Assignment) :
    let above : Set Assignment := {b | b.names = g.names ∧
      (∀ n ∈ g.names, x.valueOf n ≤ b.valueOf n) ∧
      ∀ n f, g.formula? n = some f → f.eval s.connectives b.valueOf ≤ b.valueOf n}
    (∀ a : Assignment, (s.step g a).next.names = g.names ∧
      ∀ n ∈ g.names, a.valueOf n ≤ (s.step g a).next.valueOf n) ∧
    (∃ k < 2 * g.size + 1, (s.step g (s.afterRounds g x k)).changed = []) ∧
    ∀ k, (s.step g (s.afterRounds g x k)).changed = [] →
      let y := (s.step g (s.afterRounds g x k)).next
      s.step g y = ⟨y, []⟩ ∧
      (s.config.grounding = .openWorld → s.connectives.violations = [] →
        y ∈ above ∧ ∀ b ∈ above, y.leq b = true) := by
  intro above
  refine ⟨fun a => ⟨s.names_step g a, fun n hn => s.valueOf_le_step hn a⟩, ?_, fun k hk => ?_⟩
  · obtain ⟨k, hk, hchanged⟩ := s.exists_unchanged_round g x
    exact ⟨k, by omega, hchanged⟩
  intro y
  have hy : s.step g y = ⟨y, []⟩ := s.step_next_of_changed_eq_nil g hk
  refine ⟨hy, fun hopen hviolations => ⟨⟨s.names_step g _, ?_, ?_⟩, fun b hb => ?_⟩⟩
  · exact fun n hn => s.afterRounds_le_afterRounds hn x (Nat.zero_le (k + 1))
  · exact closed_of_step_eq hopen (by rw [hy])
  · obtain ⟨-, hstart, hclosed⟩ := hb
    have hmono : s.connectives.Monotone := s.connectives.violations_eq_nil_iff.1 hviolations
    have hle := afterRounds_le_of_closed hopen hmono hclosed (g.view_le x hstart) (k + 1)
    rw [afterRounds_view] at hle
    exact Assignment.leq_iff.2 hle

end Solver

end SelfReference
