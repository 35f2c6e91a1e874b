import SelfReference.Proofs.MonotoneEvaluation
import SelfReference.Proofs.Runs

/-!
# The least fixed point

Under open grounding and monotone connectives the values of a run never exceed what the formulas
say of them, so the join of a round adds nothing to the evaluation.  The run is then the ascent
from no evidence to the least assignment that agrees with every formula.
-/

namespace SelfReference

/-- Every formula says at most the value of its sentence. -/
def SentenceGraph.Closed (g : SentenceGraph) (c : Connectives) (v : Valuation) : Prop :=
  ∀ n f, g.formula? n = some f → f.eval c v ≤ v n

/-- Every formula says at least the value of its sentence. -/
def SentenceGraph.Supported (g : SentenceGraph) (c : Connectives) (v : Valuation) : Prop :=
  ∀ n f, g.formula? n = some f → v n ≤ f.eval c v

namespace Solver

theorem verify_eq_ok_iff {s : Solver} (h : s.config.verifyOperators = true) :
    s.verify = .ok () ↔ s.connectives.Monotone := by
  rw [← Connectives.violations_eq_nil_iff, verify, if_pos h]
  cases s.connectives.violations <;> simp

theorem verify_of_violations {s : Solver} (h : s.connectives.violations = []) :
    s.verify = .ok () := by
  unfold verify
  rw [h]
  split <;> rfl

theorem solve_of_not_monotone {s : Solver} (h : s.config.verifyOperators = true)
    (hmono : ¬ s.connectives.Monotone) (g : SentenceGraph) :
    ∃ d, s.solve g = .error (.nonMonotone d) := by
  rw [← Connectives.violations_eq_nil_iff] at hmono
  obtain ⟨v, vs, hv⟩ := List.exists_cons_of_ne_nil hmono
  refine ⟨s!"{v.message} ({vs.length + 1} violation(s) in total)", ?_⟩
  rw [solve, verify, if_pos h, hv]
  rfl

/-! ### Sentences that read exactly -/

section Exact

variable {s : Solver} {g : SentenceGraph} {n : String} {f : Formula}
  (hf : g.formula? n = some f) (hexact : ∀ a, s.reading g n a = a.valueOf)
include hf hexact

theorem valueOf_step_of_exact (a : Assignment) :
    (s.step g a).next.valueOf n = (a.valueOf n).join (f.eval s.connectives a.valueOf) := by
  rw [s.valueOf_step hf, hexact]

/-- A round keeps the value of a sentence below what its formula says: the new evidence was said by
the formula before, and it says no less now. -/
theorem le_eval_step (hmono : s.connectives.Monotone) {a : Assignment} (ha : a.names = g.names)
    (h : a.valueOf n ≤ f.eval s.connectives a.valueOf) :
    (s.step g a).next.valueOf n ≤ f.eval s.connectives (s.step g a).next.valueOf := by
  calc (s.step g a).next.valueOf n
      = (a.valueOf n).join (f.eval s.connectives a.valueOf) := valueOf_step_of_exact hf hexact a
    _ = f.eval s.connectives a.valueOf := Truth.join_eq_right_iff.2 h
    _ ≤ f.eval s.connectives (s.step g a).next.valueOf :=
        Formula.eval_mono hmono (s.valueOf_le_next ha) f

theorem le_eval_afterRounds (hmono : s.connectives.Monotone) (k : Nat) :
    (s.afterRounds g g.bottom k).valueOf n ≤
      f.eval s.connectives (s.afterRounds g g.bottom k).valueOf := by
  induction k with
  | zero => exact g.bottom_le (fun _ => f.eval s.connectives g.bottom.valueOf) n
  | succ k ih => exact le_eval_step hf hexact hmono (s.names_afterRounds g.names_bottom k) ih

end Exact

/-! ### Exact reading everywhere -/

section Open

variable {s : Solver} {g : SentenceGraph} (hopen : s.config.grounding = .openWorld)
include hopen

theorem reading_open (n : String) (a : Assignment) : s.reading g n a = a.valueOf := by
  unfold reading
  rw [hopen]

theorem valueOf_step_open {n : String} {f : Formula} (hf : g.formula? n = some f)
    (a : Assignment) :
    (s.step g a).next.valueOf n = (a.valueOf n).join (f.eval s.connectives a.valueOf) :=
  valueOf_step_of_exact hf (reading_open hopen n) a

/-- A fixed assignment is closed under its formulas. -/
theorem closed_of_step_eq {a : Assignment} (h : (s.step g a).next = a) :
    g.Closed s.connectives a.valueOf := by
  intro n f hf
  have hle := s.eval_reading_le_of_step_eq h hf
  rw [reading_open hopen] at hle
  exact hle

variable (hmono : s.connectives.Monotone)
include hmono

theorem supported_afterRounds (k : Nat) :
    g.Supported s.connectives (s.afterRounds g g.bottom k).valueOf :=
  fun n _ hf => le_eval_afterRounds hf (reading_open hopen n) hmono k

/-- No round leaves what is below a closed valuation. -/
theorem step_le_of_closed {a : Assignment} {v : Valuation} (hv : g.Closed s.connectives v)
    (h : a.valueOf ≤ v) : (s.step g a).next.valueOf ≤ v := by
  refine Assignment.valueOf_le fun n hn => ?_
  rw [names_step] at hn
  obtain ⟨f, hf⟩ := SentenceGraph.mem_names_iff.1 hn
  rw [valueOf_step_open hopen hf, Truth.join_le_iff]
  exact ⟨h n, le_trans (Formula.eval_mono hmono h f) (hv n f hf)⟩

theorem afterRounds_le_of_closed {a : Assignment} {v : Valuation}
    (hv : g.Closed s.connectives v) (h : a.valueOf ≤ v) (k : Nat) :
    (s.afterRounds g a k).valueOf ≤ v := by
  induction k with
  | zero => exact h
  | succ k ih => exact step_le_of_closed hopen hmono hv ih

end Open

/-- Solving with exact reading and checked connectives refuses exactly the connectives that are not
monotone; for all others it gives the least assignment that every formula agrees with. -/
theorem solve_open_isLeast (c : SolverConfig) (ops : Connectives) (g : SentenceGraph) :
    let s : Solver := ⟨{ c with
      grounding := .openWorld, verifyOperators := true, maxIterations := none }, ops⟩
    (¬ ops.Monotone ∧ ∃ d, s.solve g = .error (.nonMonotone d)) ∨
    (ops.Monotone ∧ ∃ sol, s.solve g = .ok sol ∧ sol.assignment.names = g.names ∧
      (∀ n f, g.formula? n = some f →
        sol.assignment.valueOf n = f.eval ops sol.assignment.valueOf) ∧
      ∀ b : Assignment, (∀ n f, g.formula? n = some f → f.eval ops b.valueOf ≤ b.valueOf n) →
        ∀ n, sol.assignment.valueOf n ≤ b.valueOf n) := by
  intro s
  by_cases hmono : ops.Monotone
  · obtain ⟨R, sol, hR, hsol, hassign⟩ :=
      exists_solution ((verify_eq_ok_iff (s := s) rfl).2 hmono) rfl g
    have hfixed : (s.step g sol.assignment).next = sol.assignment := by
      rw [hassign]
      exact s.step_of_mem_stableAfter hR.1
    refine Or.inr ⟨hmono, sol, hsol, ?_, ?_, ?_⟩
    · rw [hassign, s.names_afterRounds g.names_bottom]
    · intro n f hf
      have hsupp := supported_afterRounds (s := s) (g := g) rfl hmono R
      rw [← hassign] at hsupp
      exact le_antisymm (hsupp n f hf) (closed_of_step_eq (s := s) rfl hfixed n f hf)
    · intro b hb
      rw [hassign]
      exact afterRounds_le_of_closed (s := s) rfl hmono hb
        (fun n => by rw [g.valueOf_bottom]; exact Truth.neither_le _) R
  · exact Or.inl ⟨hmono, solve_of_not_monotone (s := s) rfl hmono g⟩

end Solver

end SelfReference
