import Mathlib.Order.Nat
import SelfReference.Solver
import SelfReference.Proofs.Evidence

/-!
# Repeated rounds

A round keeps the names of the graph, never takes evidence away, and is the identity exactly where
nothing changed.  Every round that is not adds evidence, so among the first `2 * g.size + 1`
rounds one changes nothing, whatever the connectives and the grounding.
-/

namespace SelfReference.Solver

variable (s : Solver) (g : SentenceGraph)

/-! ### One round -/

theorem names_step (a : Assignment) : (s.step g a).next.names = g.names := NameMap.names_map ..

theorem valueOf_step {g : SentenceGraph} {n : String} {f : Formula} (h : g.formula? n = some f)
    (a : Assignment) :
    (s.step g a).next.valueOf n = (a.valueOf n).join (f.eval s.connectives (s.reading g n a)) := by
  have hget : (s.step g a).next.get? n = some (s.update g a n f) := by
    show (g.sentences.map (s.update g a)).get? n = _
    rw [NameMap.get?_map, show g.sentences.get? n = some f from h, Option.map_some]
  rw [Assignment.valueOf_eq_of_get? hget]
  rfl

/-- A round takes no evidence away. -/
theorem valueOf_le_step {g : SentenceGraph} {n : String} (hn : n ∈ g.names) (a : Assignment) :
    a.valueOf n ≤ (s.step g a).next.valueOf n := by
  obtain ⟨f, hf⟩ := SentenceGraph.mem_names_iff.1 hn
  rw [s.valueOf_step hf]
  exact Truth.left_le_join _ _

theorem valueOf_le_next {g : SentenceGraph} {a : Assignment} (ha : a.names = g.names) :
    a.valueOf ≤ (s.step g a).next.valueOf :=
  Assignment.valueOf_le fun _ hn => s.valueOf_le_step (ha ▸ hn) a

/-- What a fixed assignment gives a sentence holds what the sentence says as it reads. -/
theorem eval_reading_le_of_step_eq {g : SentenceGraph} {a : Assignment}
    (h : (s.step g a).next = a) {n : String} {f : Formula} (hf : g.formula? n = some f) :
    f.eval s.connectives (s.reading g n a) ≤ a.valueOf n := by
  have hvalue := s.valueOf_step hf a
  rw [h] at hvalue
  exact Truth.join_eq_left_iff.1 hvalue.symm

theorem isFixed_step_iff {g : SentenceGraph} {a : Assignment} (ha : a.names = g.names) :
    (s.step g a).isFixed = true ↔ (s.step g a).next = a := by
  show ((s.step g a).next.changedSince a).isEmpty = true ↔ _
  rw [List.isEmpty_iff, Assignment.changedSince_eq_nil_iff (by rw [names_step, ha])]

theorem evidence_lt_step {g : SentenceGraph} {a : Assignment} (ha : a.names = g.names)
    (hne : (s.step g a).next ≠ a) : a.evidence < (s.step g a).next.evidence := by
  refine Assignment.evidence_lt (by rw [names_step, ha]) (fun n hn => ?_) (Ne.symm hne)
  rw [ha] at hn
  exact s.valueOf_le_step hn a

/-- Only the connectives and the grounding matter to a round. -/
theorem step_congr {s t : Solver} (hconn : s.connectives = t.connectives)
    (hground : s.config.grounding = t.config.grounding) (a : Assignment) :
    s.step g a = t.step g a := by
  have hreading (n : String) : s.reading g n a = t.reading g n a := by
    unfold reading
    rw [hground]
  have hupdate : s.update g a = t.update g a := by
    funext n f
    unfold update
    rw [hreading, hconn]
  unfold step
  rw [hupdate]

/-! ### Many rounds -/

/-- The assignment that so many rounds make of an assignment. -/
def afterRounds (a : Assignment) : Nat → Assignment
  | 0 => a
  | k + 1 => (s.step g (afterRounds a k)).next

theorem afterRounds_succ (a : Assignment) (k : Nat) :
    s.afterRounds g a (k + 1) = (s.step g (s.afterRounds g a k)).next := rfl

theorem afterRounds_congr {s t : Solver} (hconn : s.connectives = t.connectives)
    (hground : s.config.grounding = t.config.grounding) (a : Assignment) (k : Nat) :
    s.afterRounds g a k = t.afterRounds g a k := by
  induction k with
  | zero => rfl
  | succ k ih => rw [afterRounds_succ, afterRounds_succ, ih, step_congr g hconn hground]

theorem names_afterRounds {g : SentenceGraph} {a : Assignment} (ha : a.names = g.names) (k : Nat) :
    (s.afterRounds g a k).names = g.names := by
  cases k with
  | zero => exact ha
  | succ k => exact s.names_step g _

/-- Two rounds with the same value for every sentence are the same. -/
theorem afterRounds_ext {g : SentenceGraph} {a : Assignment} (ha : a.names = g.names) {j k : Nat}
    (h : ∀ n ∈ g.names, (s.afterRounds g a j).valueOf n = (s.afterRounds g a k).valueOf n) :
    s.afterRounds g a j = s.afterRounds g a k := by
  have hnames (k : Nat) : (s.afterRounds g a k).names = g.names := s.names_afterRounds ha k
  exact Assignment.ext_valueOf ((hnames j).trans (hnames k).symm) fun n hn => h n (hnames j ▸ hn)

theorem valueOf_afterRounds_of_not_mem {g : SentenceGraph} {a : Assignment}
    (ha : a.names = g.names) {n : String} (hn : n ∉ g.names) (k : Nat) :
    (s.afterRounds g a k).valueOf n = .neither :=
  Assignment.valueOf_of_not_mem (by rw [s.names_afterRounds ha]; exact hn)

/-- Rounds take no evidence away, however many are run. -/
theorem afterRounds_le_afterRounds {g : SentenceGraph} {n : String} (hn : n ∈ g.names)
    (a : Assignment) {i j : Nat} (h : i ≤ j) :
    (s.afterRounds g a i).valueOf n ≤ (s.afterRounds g a j).valueOf n := by
  induction j, h using Nat.le_induction with
  | base => exact le_rfl
  | succ j _ ih => exact le_trans ih (s.valueOf_le_step hn _)

/-- Every round that changes something adds a bit of evidence. -/
theorem le_evidence_afterRounds {g : SentenceGraph} {a : Assignment} (ha : a.names = g.names)
    {k : Nat} (h : ∀ j < k, s.afterRounds g a (j + 1) ≠ s.afterRounds g a j) :
    k ≤ (s.afterRounds g a k).evidence := by
  induction k with
  | zero => exact Nat.zero_le _
  | succ k ih =>
    have hk := ih fun j hj => h j (by omega)
    have hlt := s.evidence_lt_step (s.names_afterRounds ha k) (h k (by omega))
    rw [afterRounds_succ]
    omega

theorem exists_fixed_round {g : SentenceGraph} {a : Assignment} (ha : a.names = g.names) :
    ∃ k ≤ 2 * g.size, s.afterRounds g a (k + 1) = s.afterRounds g a k := by
  by_contra hnone
  have hchange : ∀ j < 2 * g.size + 1, s.afterRounds g a (j + 1) ≠ s.afterRounds g a j := by
    intro j hj heq
    exact hnone ⟨j, by omega, heq⟩
  have hlow := s.le_evidence_afterRounds ha hchange
  have hhigh := (s.afterRounds g a (2 * g.size + 1)).evidence_le
  rw [← NameMap.length_names, s.names_afterRounds ha, g.length_names, Truth.height] at hhigh
  omega

/-- The numbers of rounds of which the last one changed nothing. -/
def stableAfter (a : Assignment) : Set Nat :=
  {r | 1 ≤ r ∧ s.afterRounds g a r = s.afterRounds g a (r - 1)}

theorem exists_eq_succ_of_mem_stableAfter {g : SentenceGraph} {a : Assignment} {r : Nat}
    (h : r ∈ s.stableAfter g a) : ∃ k, r = k + 1 :=
  Nat.exists_eq_add_of_le' h.1

/-- After a round that changed nothing, the next one changes nothing either. -/
theorem step_of_mem_stableAfter {g : SentenceGraph} {a : Assignment} {r : Nat}
    (h : r ∈ s.stableAfter g a) :
    (s.step g (s.afterRounds g a r)).next = s.afterRounds g a r := by
  obtain ⟨hpos, hfixed⟩ := h
  have hsucc : s.afterRounds g a r = (s.step g (s.afterRounds g a (r - 1))).next := by
    rw [← afterRounds_succ, Nat.sub_add_cancel hpos]
  rw [hfixed, ← hsucc, hfixed]

theorem afterRounds_eq_of_le {g : SentenceGraph} {a : Assignment} {r : Nat}
    (h : r ∈ s.stableAfter g a) {k : Nat} (hk : r ≤ k) :
    s.afterRounds g a k = s.afterRounds g a r := by
  induction k, hk using Nat.le_induction with
  | base => rfl
  | succ k _ ih => rw [afterRounds_succ, ih, s.step_of_mem_stableAfter h]

/-- Rounds after the last change change nothing, and rounds before it are not stable. -/
theorem isLeast_stableAfter {g : SentenceGraph} {a : Assignment} {k : Nat}
    (hstable : s.afterRounds g a (k + 2) = s.afterRounds g a (k + 1))
    (hchange : s.afterRounds g a (k + 1) ≠ s.afterRounds g a k) :
    IsLeast (s.stableAfter g a) (k + 2) := by
  refine ⟨⟨by omega, hstable⟩, fun r hr => ?_⟩
  by_contra hlt
  refine hchange ?_
  rcases Nat.lt_or_ge k r with hk | hk
  · obtain rfl : r = k + 1 := by omega
    exact hr.2
  · rw [s.afterRounds_eq_of_le hr hk, s.afterRounds_eq_of_le hr (Nat.le_succ_of_le hk)]

theorem stableAfter_congr {s t : Solver} (hconn : s.connectives = t.connectives)
    (hground : s.config.grounding = t.config.grounding) (a : Assignment) :
    s.stableAfter g a = t.stableAfter g a := by
  unfold stableAfter
  simp only [afterRounds_congr g hconn hground]

theorem exists_isLeast_stableAfter {g : SentenceGraph} {a : Assignment} (ha : a.names = g.names) :
    ∃ r, IsLeast (s.stableAfter g a) r ∧ r ≤ 2 * g.size + 1 := by
  obtain ⟨k, hk, hfixed⟩ := s.exists_fixed_round ha
  have hmem : k + 1 ∈ s.stableAfter g a := ⟨by omega, hfixed⟩
  classical
  have hleast := Set.Nonempty.isLeast_natFind (s := s.stableAfter g a) ⟨k + 1, hmem⟩
  have hle := hleast.2 hmem
  exact ⟨_, hleast, by omega⟩

end SelfReference.Solver
