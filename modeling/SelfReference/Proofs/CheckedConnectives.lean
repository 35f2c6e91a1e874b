import SelfReference.Proofs.LeastFixedPoint
import SelfReference.Proofs.StepwiseRuns

/-!
# What the check of the connectives says

The check varies one operand of one connective at a time, while a formula nests connectives and
reads any number of names that change together.  The check still decides whether formulas keep the
information order: each violation that it lists is a formula of one name that does not, and if
none is listed every formula does.
-/

namespace SelfReference

namespace Connectives

/-- More evidence about one operand takes evidence from a connective as the violation says. -/
def Violation.Holds (c : Connectives) : Violation → Prop
  | .negation lower upper => lower ≤ upper ∧ ¬ c.neg lower ≤ c.neg upper
  | .conjunction lower upper other => lower ≤ upper ∧
      (¬ c.conj lower other ≤ c.conj upper other ∨ ¬ c.conj other lower ≤ c.conj other upper)
  | .disjunction lower upper other => lower ≤ upper ∧
      (¬ c.disj lower other ≤ c.disj upper other ∨ ¬ c.disj other lower ≤ c.disj other upper)

theorem not_keepsBeside_iff {op : Truth → Truth → Truth} {lower upper other : Truth} :
    ¬ keepsBeside op lower upper other = true ↔
      ¬ op lower other ≤ op upper other ∨ ¬ op other lower ≤ op other upper := by
  rw [keepsBeside_iff, not_and_or]

theorem mem_violations_iff (c : Connectives) {x : Violation} : x ∈ c.violations ↔ x.Holds c := by
  have hleq {a b : Truth} : a.leq b = true ↔ a ≤ b := Iff.rfl
  simp only [violations, violationsAt, List.mem_flatMap, List.mem_filter, Truth.mem_all, true_and,
    List.mem_append, List.mem_ite_nil_left, List.mem_singleton, hleq, not_keepsBeside_iff]
  constructor
  · rintro ⟨lower, upper, hle, ⟨hneg, rfl⟩ | ⟨other, ⟨hconj, rfl⟩ | ⟨hdisj, rfl⟩⟩⟩
    · exact ⟨hle, hneg⟩
    · exact ⟨hle, hconj⟩
    · exact ⟨hle, hdisj⟩
  · intro h
    cases x with
    | negation lower upper => exact ⟨lower, upper, h.1, Or.inl ⟨h.2, rfl⟩⟩
    | conjunction lower upper other =>
      exact ⟨lower, upper, h.1, Or.inr ⟨other, Or.inl ⟨h.2, rfl⟩⟩⟩
    | disjunction lower upper other =>
      exact ⟨lower, upper, h.1, Or.inr ⟨other, Or.inr ⟨h.2, rfl⟩⟩⟩

/-- A violation is a formula of one name that loses evidence when the name gains some. -/
theorem Violation.Holds.exists_formula {c : Connectives} {x : Violation} (h : x.Holds c) :
    ∃ (f : Formula) (v w : Valuation), (∀ n, v n ≤ w n) ∧ ¬ f.eval c v ≤ f.eval c w := by
  let name : Formula := .ref "a"
  cases x with
  | negation lower upper =>
    exact ⟨.neg name, fun _ => lower, fun _ => upper, fun _ => h.1, h.2⟩
  | conjunction lower upper other =>
    rcases h with ⟨hle, hleft | hright⟩
    · exact ⟨.conj name (.lit other), fun _ => lower, fun _ => upper, fun _ => hle, hleft⟩
    · exact ⟨.conj (.lit other) name, fun _ => lower, fun _ => upper, fun _ => hle, hright⟩
  | disjunction lower upper other =>
    rcases h with ⟨hle, hleft | hright⟩
    · exact ⟨.disj name (.lit other), fun _ => lower, fun _ => upper, fun _ => hle, hleft⟩
    · exact ⟨.disj (.lit other) name, fun _ => lower, fun _ => upper, fun _ => hle, hright⟩

/-- The check finds nothing exactly if every formula keeps the information order. -/
theorem violations_eq_nil_iff_eval_le (c : Connectives) :
    c.violations = [] ↔
      ∀ (f : Formula) (v w : Valuation), (∀ n, v n ≤ w n) → f.eval c v ≤ f.eval c w := by
  constructor
  · intro h f v w hvw
    exact Formula.eval_mono (c.violations_eq_nil_iff.1 h) hvw f
  · intro h
    refine List.eq_nil_iff_forall_not_mem.2 fun x hx => ?_
    obtain ⟨f, v, w, hvw, hloss⟩ := (c.mem_violations_iff.1 hx).exists_formula
    exact hloss (h f v w hvw)

end Connectives

namespace Run

theorem finish_ne_nonMonotone (s : Solver) (g : SentenceGraph) (r : Run) (d : String) :
    r.finish s g ≠ .error (.nonMonotone d) := by
  intro h
  rw [finish, result] at h
  split at h <;> cases h

end Run

namespace Solver

theorem solve_ne_nonMonotone {s : Solver} (h : s.verify = .ok ()) (g : SentenceGraph) (d : String) :
    s.solve g ≠ .error (.nonMonotone d) := by
  rw [solve_of_verify h]
  exact Run.finish_ne_nonMonotone s g (Run.start s g) d

theorem solve_eq_unchecked (c : SolverConfig) {ops : Connectives} (h : ops.violations = [])
    (g : SentenceGraph) :
    (⟨{ c with verifyOperators := true }, ops⟩ : Solver).solve g =
      (⟨{ c with verifyOperators := false }, ops⟩ : Solver).solve g := by
  have hrounds : Run.SameRounds ⟨{ c with verifyOperators := true }, ops⟩ g
      ⟨{ c with verifyOperators := false }, ops⟩ g :=
    ⟨fun a => step_congr g rfl rfl a, rfl, rfl, rfl, rfl⟩
  exact hrounds.solve_eq (verify_of_violations h)

/-- The check of the connectives finds nothing exactly if every formula keeps the information order
under them.  Solving with the check fails on it exactly if some formula does not, and otherwise
does what solving without the check does. -/
theorem solve_checked (c : SolverConfig) (ops : Connectives) (g : SentenceGraph) :
    let Keeps : Prop :=
      ∀ (f : Formula) (v w : Valuation), (∀ n, v n ≤ w n) → f.eval ops v ≤ f.eval ops w
    let checked : Solver := ⟨{ c with verifyOperators := true }, ops⟩
    let unchecked : Solver := ⟨{ c with verifyOperators := false }, ops⟩
    (ops.violations = [] ↔ Keeps) ∧
    ((∃ d, checked.solve g = .error (.nonMonotone d)) ↔
      ∃ (f : Formula) (v w : Valuation), (∀ n, v n ≤ w n) ∧ ¬ f.eval ops v ≤ f.eval ops w) ∧
    ((∀ d, checked.solve g ≠ .error (.nonMonotone d)) → checked.solve g = unchecked.solve g) := by
  intro Keeps checked unchecked
  have hcheck : ops.violations = [] ↔ Keeps := ops.violations_eq_nil_iff_eval_le
  have hrefused : ¬ Keeps → ∃ d, checked.solve g = .error (.nonMonotone d) := by
    intro h
    rw [← hcheck, ops.violations_eq_nil_iff] at h
    exact solve_of_not_monotone (s := checked) rfl h g
  refine ⟨hcheck, ⟨fun ⟨d, hd⟩ => ?_, fun ⟨f, v, w, hvw, hloss⟩ => ?_⟩, fun h => ?_⟩
  · by_contra hnone
    have hkeeps : Keeps := fun f v w hvw => by
      by_contra hloss
      exact hnone ⟨f, v, w, hvw, hloss⟩
    have hverify : checked.verify = .ok () := verify_of_violations (hcheck.2 hkeeps)
    exact solve_ne_nonMonotone hverify g d hd
  · exact hrefused fun hkeeps => hloss (hkeeps f v w hvw)
  · have hkeeps : Keeps := by
      by_contra hlost
      obtain ⟨d, hd⟩ := hrefused hlost
      exact h d hd
    exact solve_eq_unchecked c (hcheck.2 hkeeps) g

end Solver

end SelfReference
