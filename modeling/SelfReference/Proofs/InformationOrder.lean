import Mathlib.Order.Lattice
import SelfReference.Truth

/-!
# The information order

Truth values under containment of evidence: a partial order of height two in which `join` is the
least upper bound.  The rank of a value is the number of its evidence bits; it counts how often a
value can still have risen.
-/

namespace SelfReference.Truth

instance : PartialOrder Truth where
  le_refl a := by cases a <;> decide
  le_trans a b c := by cases a <;> cases b <;> cases c <;> decide
  le_antisymm a b := by cases a <;> cases b <;> decide
  lt_iff_le_not_ge a b := by cases a <;> cases b <;> decide

theorem neither_le (v : Truth) : neither ≤ v := by cases v <;> decide

theorem left_le_join (v w : Truth) : v ≤ v.join w := by cases v <;> cases w <;> decide

theorem join_le_iff {v w u : Truth} : v.join w ≤ u ↔ v ≤ u ∧ w ≤ u := by
  cases v <;> cases w <;> cases u <;> decide

theorem join_eq_left_iff {v w : Truth} : v.join w = v ↔ w ≤ v := by
  cases v <;> cases w <;> decide

theorem join_eq_right_iff {v w : Truth} : v.join w = w ↔ v ≤ w := by
  cases v <;> cases w <;> decide

/-- The number of evidence bits of a value. -/
def rank (v : Truth) : Nat := v.toldTrue.toNat + v.toldFalse.toNat

theorem rank_le_height (v : Truth) : v.rank ≤ height := by cases v <;> decide

theorem rank_le_of_le {v w : Truth} (h : v ≤ w) : v.rank ≤ w.rank := by
  revert h
  cases v <;> cases w <;> decide

theorem rank_lt_of_lt {v w : Truth} (h : v < w) : v.rank < w.rank := by
  revert h
  cases v <;> cases w <;> decide

end SelfReference.Truth
