import SelfReference.Proofs.Runs

/-!
# Change counts

The count of a sentence rises by one in every round that changes its value, so the counts of a run
follow its assignments, name only sentences of the graph, and stand still once a round has changed
nothing.
-/

namespace SelfReference

theorem Metrics.get?_foldl_countChange {changed : List String} (hnodup : changed.Nodup)
    (m : NameMap Nat) (n : String) :
    (changed.foldl countChange m).get? n =
      if n ∈ changed then some ((m.get? n).getD 0 + 1) else m.get? n := by
  induction changed generalizing m with
  | nil => simp
  | cons c changed ih =>
    rw [List.nodup_cons] at hnodup
    rw [List.foldl_cons, ih hnodup.2, countChange, NameMap.get?_insert]
    by_cases hnc : n = c
    · subst hnc
      simp [hnodup.1]
    · simp [hnc]

theorem Assignment.changedSince_nodup (a b : Assignment) : (a.changedSince b).Nodup :=
  a.names_nodup.sublist (List.Sublist.map _ List.filter_sublist)

namespace Solver

variable (s : Solver) {g : SentenceGraph} {a : Assignment} {n : String}

theorem mem_changed_step (ha : a.names = g.names) :
    n ∈ (s.step g a).changed ↔ n ∈ g.names ∧ (s.step g a).next.valueOf n ≠ a.valueOf n := by
  have hnext : (s.step g a).next.names = g.names := s.names_step g a
  show n ∈ (s.step g a).next.changedSince a ↔ _
  rw [Assignment.mem_changedSince]
  constructor
  · rintro ⟨v, hv, hne⟩
    have hn : n ∈ g.names := hnext ▸ (NameMap.mem_names_iff _).2 ⟨v, hv⟩
    refine ⟨hn, fun heq => hne ?_⟩
    rw [Assignment.get?_eq_some_valueOf (ha ▸ hn), ← heq, Assignment.valueOf_eq_of_get? hv]
  · rintro ⟨hn, hne⟩
    have hold : a.get? n = some (a.valueOf n) := Assignment.get?_eq_some_valueOf (ha ▸ hn)
    refine ⟨_, Assignment.get?_eq_some_valueOf (hnext ▸ hn), fun heq => hne ?_⟩
    rw [hold] at heq
    exact (Option.some.inj heq).symm

end Solver

namespace Run

variable (s : Solver) (g : SentenceGraph)

/-- The change counts after so many rounds. -/
def changesAfter (k : Nat) : NameMap Nat := (after s g k).metrics.changes

theorem metrics_after_succ (k : Nat) : (after s g (k + 1)).metrics =
    { (after s g k).metrics with
      rounds := (after s g k).metrics.rounds + 1
      changingRounds := (after s g k).metrics.changingRounds +
        if (s.step g (after s g k).current).isFixed then 0 else 1
      changes := changesAfter s g (k + 1) } := by
  rw [changesAfter, after_succ, metrics_apply]
  rfl

theorem get?_changesAfter_succ (k : Nat) (n : String) :
    (changesAfter s g (k + 1)).get? n =
      if n ∈ g.names ∧
        (s.afterRounds g g.bottom (k + 1)).valueOf n ≠ (s.afterRounds g g.bottom k).valueOf n
      then some (((changesAfter s g k).get? n).getD 0 + 1) else (changesAfter s g k).get? n := by
  have hchanged := s.mem_changed_step (n := n) (s.names_afterRounds g.names_bottom k)
  have hnodup : (s.step g (s.afterRounds g g.bottom k)).changed.Nodup :=
    Assignment.changedSince_nodup _ _
  have hcount : changesAfter s g (k + 1) =
      (s.step g (s.afterRounds g g.bottom k)).changed.foldl Metrics.countChange
        (changesAfter s g k) := by
    rw [changesAfter, after_succ, metrics_apply, current_after]
    rfl
  rw [hcount, Metrics.get?_foldl_countChange hnodup]
  exact if_congr hchanged rfl rfl

theorem mem_names_of_changesAfter {k : Nat} {n : String}
    (h : n ∈ (changesAfter s g k).names) : n ∈ g.names := by
  induction k with
  | zero => exact absurd h List.not_mem_nil
  | succ k ih =>
    obtain ⟨c, hc⟩ := (NameMap.mem_names_iff _).1 h
    rw [get?_changesAfter_succ] at hc
    split at hc
    · rename_i hn
      exact hn.1
    · exact ih ((NameMap.mem_names_iff _).2 ⟨c, hc⟩)

theorem changesAfter_eq_of_le {R : Nat} (hR : R ∈ s.stableAfter g g.bottom) {k : Nat}
    (hk : R ≤ k) : changesAfter s g k = changesAfter s g R := by
  induction k, hk using Nat.le_induction with
  | base => rfl
  | succ k hk ih =>
    have hsame : s.afterRounds g g.bottom (k + 1) = s.afterRounds g g.bottom k := by
      rw [s.afterRounds_eq_of_le hR (show R ≤ k + 1 by omega), s.afterRounds_eq_of_le hR hk]
    rw [← ih]
    refine NameMap.ext_get? fun n => ?_
    rw [get?_changesAfter_succ, hsame, if_neg fun h => h.2 rfl]

end Run

end SelfReference
