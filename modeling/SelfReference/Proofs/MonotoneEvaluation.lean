import SelfReference.Formula
import SelfReference.Proofs.InformationOrder

/-!
# Monotone evaluation

The check of the truth tables finds nothing exactly if the connectives are monotone, and under
monotone connectives every formula is monotone in the valuation.
-/

namespace SelfReference

namespace Connectives

theorem keepsBeside_iff (op : Truth → Truth → Truth) (lower upper other : Truth) :
    keepsBeside op lower upper other = true ↔
      op lower other ≤ op upper other ∧ op other lower ≤ op other upper := by
  rw [keepsBeside, Bool.and_eq_true]
  exact Iff.rfl

theorem violationsAt_eq_nil_iff (c : Connectives) (lower upper : Truth) :
    c.violationsAt lower upper = [] ↔
      c.neg lower ≤ c.neg upper ∧
        ∀ other, keepsBeside c.conj lower upper other = true ∧
          keepsBeside c.disj lower upper other = true := by
  unfold violationsAt
  rw [List.append_eq_nil_iff, List.flatMap_eq_nil_iff]
  refine and_congr ?_ ?_
  · show _ ↔ (c.neg lower).leq (c.neg upper) = true
    split <;> simp_all
  · constructor
    · intro h other
      have hother := h other (Truth.mem_all other)
      rw [List.append_eq_nil_iff] at hother
      obtain ⟨hconj, hdisj⟩ := hother
      split at hconj <;> split at hdisj <;> simp_all
    · intro h other _
      simp [h other]

theorem violations_eq_nil_iff_violationsAt (c : Connectives) :
    c.violations = [] ↔ ∀ lower upper, lower ≤ upper → c.violationsAt lower upper = [] := by
  unfold violations
  rw [List.flatMap_eq_nil_iff]
  constructor
  · intro h lower upper hle
    exact List.flatMap_eq_nil_iff.1 (h lower (Truth.mem_all lower)) upper
      (List.mem_filter.2 ⟨Truth.mem_all upper, hle⟩)
  · intro h lower _
    rw [List.flatMap_eq_nil_iff]
    intro upper hupper
    exact h lower upper (List.mem_filter.1 hupper).2

/-- No violation is found exactly if the connectives are monotone. -/
theorem violations_eq_nil_iff (c : Connectives) : c.violations = [] ↔ c.Monotone := by
  rw [violations_eq_nil_iff_violationsAt]
  constructor
  · intro h
    have hat (a b : Truth) (hab : a ≤ b) := (c.violationsAt_eq_nil_iff a b).1 (h a b hab)
    have hconj (a b o : Truth) (hab : a ≤ b) :=
      (keepsBeside_iff c.conj a b o).1 ((hat a b hab).2 o).1
    have hdisj (a b o : Truth) (hab : a ≤ b) :=
      (keepsBeside_iff c.disj a b o).1 ((hat a b hab).2 o).2
    -- both operands rise one after the other
    exact
      { neg := fun a b hab => (hat a b hab).1
        conj := fun a b a' b' hab hab' => le_trans (hconj a b a' hab).1 (hconj a' b' b hab').2
        disj := fun a b a' b' hab hab' => le_trans (hdisj a b a' hab).1 (hdisj a' b' b hab').2 }
  · intro h lower upper hle
    rw [violationsAt_eq_nil_iff]
    refine ⟨h.neg lower upper hle, fun other => ?_⟩
    rw [keepsBeside_iff, keepsBeside_iff]
    exact ⟨⟨h.conj _ _ _ _ hle le_rfl, h.conj _ _ _ _ le_rfl hle⟩,
      ⟨h.disj _ _ _ _ hle le_rfl, h.disj _ _ _ _ le_rfl hle⟩⟩

end Connectives

namespace Formula

/-- More evidence about the names gives more evidence about a formula. -/
theorem eval_mono {c : Connectives} (hc : c.Monotone) {v w : Valuation} (h : v ≤ w)
    (f : Formula) : f.eval c v ≤ f.eval c w := by
  induction f with
  | lit t => exact le_rfl
  | ref n => exact h n
  | neg f ih => exact hc.neg _ _ ih
  | conj f g ihf ihg => exact hc.conj _ _ _ _ ihf ihg
  | disj f g ihf ihg => exact hc.disj _ _ _ _ ihf ihg

end Formula

end SelfReference
