import SelfReference.Proofs.LeastFixedPoint
import SelfReference.Proofs.Cycles
import SelfReference.Proofs.StepwiseRuns

/-!
# Literals that a sentence reaches

A set of truth values that the connectives do not leave confines every formula whose literals and
references lie in it.  Under open grounding a round of monotone connectives evaluates the round
before, so a sentence stays among the values that the literals it reaches can make of no evidence:
with Belnap's tables neither contradictions nor evidence arise by themselves.
-/

namespace SelfReference

/-! ### Sets of values that the connectives keep -/

namespace Connectives

/-- Of values in a set every connective makes a value in the set. -/
structure Keeps (c : Connectives) (S : Truth → Prop) : Prop where
  neg : ∀ a, S a → S (c.neg a)
  conj : ∀ a b, S a → S b → S (c.conj a b)
  disj : ∀ a b, S a → S b → S (c.disj a b)

theorem belnap_keeps_ne_neither : belnap.Keeps (· ≠ .neither) where
  neg := by intro a; cases a <;> decide
  conj := by intro a b; cases a <;> cases b <;> decide
  disj := by intro a b; cases a <;> cases b <;> decide

theorem belnap_keeps_ne_both : belnap.Keeps (· ≠ .both) where
  neg := by intro a; cases a <;> decide
  conj := by intro a b; cases a <;> cases b <;> decide
  disj := by intro a b; cases a <;> cases b <;> decide

theorem belnap_keeps_eq_neither : belnap.Keeps (· = .neither) where
  neg := by rintro a rfl; rfl
  conj := by rintro a b rfl rfl; rfl
  disj := by rintro a b rfl rfl; rfl

theorem belnap_violations : belnap.violations = [] := by decide +kernel

theorem belnap_monotone : belnap.Monotone := belnap.violations_eq_nil_iff.1 belnap_violations

end Connectives

namespace Formula

/-- The literals from left to right with repetitions. -/
def literals : Formula → List Truth
  | lit t => [t]
  | ref _ => []
  | neg f => f.literals
  | conj f g | disj f g => f.literals ++ g.literals

theorem eval_mem {c : Connectives} {S : Truth → Prop} (hc : c.Keeps S) {v : Valuation} (f : Formula)
    (hlit : ∀ t ∈ f.literals, S t) (href : ∀ n ∈ f.occurrences, S (v n)) : S (f.eval c v) := by
  induction f with
  | lit t => exact hlit t (List.mem_singleton_self t)
  | ref n => exact href n (List.mem_singleton_self n)
  | neg f ih => exact hc.neg _ (ih hlit href)
  | conj f g ihf ihg =>
    simp only [literals, occurrences, List.mem_append] at hlit href
    exact hc.conj _ _ (ihf (fun t ht => hlit t (Or.inl ht)) fun n hn => href n (Or.inl hn))
      (ihg (fun t ht => hlit t (Or.inr ht)) fun n hn => href n (Or.inr hn))
  | disj f g ihf ihg =>
    simp only [literals, occurrences, List.mem_append] at hlit href
    exact hc.disj _ _ (ihf (fun t ht => hlit t (Or.inl ht)) fun n hn => href n (Or.inl hn))
      (ihg (fun t ht => hlit t (Or.inr ht)) fun n hn => href n (Or.inr hn))

end Formula

/-! ### What a sentence reaches -/

namespace SentenceGraph

/-- Every literal of a sentence, and of every sentence that references lead to from it, is in a
set. -/
def Confined (g : SentenceGraph) (S : Truth → Prop) (a : String) : Prop :=
  ∀ b f, Relation.ReflTransGen g.sentences.Refers a b → g.formula? b = some f →
    ∀ t ∈ f.literals, S t

namespace Confined

variable {g : SentenceGraph} {S : Truth → Prop} {a b : String}

theorem literals (h : g.Confined S a) {f : Formula} (hf : g.formula? a = some f) :
    ∀ t ∈ f.literals, S t := h a f .refl hf

theorem of_refers (h : g.Confined S a) (hab : g.sentences.Refers a b) : g.Confined S b :=
  fun d f hbd hf => h d f (.head hab hbd) hf

end Confined

end SentenceGraph

/-! ### Open grounding -/

namespace Solver

variable {s : Solver} {g : SentenceGraph}

theorem verify_of_belnap (h : s.connectives = .belnap) : s.verify = .ok () :=
  verify_of_violations (h ▸ Connectives.belnap_violations)

/-- Under open grounding a round evaluates the round before it; the join adds nothing. -/
theorem valueOf_afterRounds_succ (hopen : s.config.grounding = .openWorld)
    (hmono : s.connectives.Monotone) {n : String} {f : Formula} (hf : g.formula? n = some f)
    (k : Nat) :
    (s.afterRounds g g.bottom (k + 1)).valueOf n =
      f.eval s.connectives (s.afterRounds g g.bottom k).valueOf := by
  have hsupp := supported_afterRounds hopen hmono k n f hf
  rw [s.afterRounds_succ, valueOf_step_open hopen hf]
  exact Truth.join_eq_right_iff.2 hsupp

theorem valueOf_mem_of_confined (hopen : s.config.grounding = .openWorld)
    (hmono : s.connectives.Monotone) {S : Truth → Prop} (hkeeps : s.connectives.Keeps S)
    (hnone : S .neither) {a : String} (ha : g.Confined S a) (k : Nat) :
    S ((s.afterRounds g g.bottom k).valueOf a) := by
  -- the induction is on the rounds, for all sentences that lead to no other literals at once
  induction k generalizing a with
  | zero =>
    show S (g.bottom.valueOf a)
    rw [g.valueOf_bottom]
    exact hnone
  | succ k ih =>
    by_cases hmem : a ∈ g.names
    · obtain ⟨f, hf⟩ := SentenceGraph.mem_names_iff.1 hmem
      rw [valueOf_afterRounds_succ hopen hmono hf]
      refine f.eval_mem hkeeps (ha.literals hf) fun n hn => ih (ha.of_refers ⟨f, hf, hn⟩)
    · rw [s.valueOf_afterRounds_of_not_mem g.names_bottom hmem]
      exact hnone

/-- With Belnap's connectives and exact reading, a sentence that reaches no literal `both` is never
told both, neither after any number of moves of the run nor in the solution, and one that reaches
no literal but `neither` is never told anything. -/
theorem solve_open_confined (c : SolverConfig) (g : SentenceGraph) :
    let s : Solver := ⟨{ c with grounding := .openWorld, maxIterations := none }, .belnap⟩
    let x (k : Nat) : Assignment := ((Run.advance s g)^[k] (Run.start s g)).current
    ∃ sol, s.solve g = .ok sol ∧ sol.assignment.names = g.names ∧ ∀ a ∈ g.names,
      (g.Confined (· ≠ .both) a →
        (∀ k, (x k).valueOf a ≠ .both) ∧ sol.assignment.valueOf a ≠ .both) ∧
      (g.Confined (· = .neither) a →
        (∀ k, (x k).valueOf a = .neither) ∧ sol.assignment.valueOf a = .neither) := by
  intro s x
  obtain ⟨R, sol, -, hsol, hassign⟩ := exists_solution (verify_of_belnap (s := s) rfl) rfl g
  have hrun (k : Nat) : ∃ j, x k = s.afterRounds g g.bottom j :=
    ⟨_, (Run.faithful_iterate_advance s g k).current_eq⟩
  have hmem {S : Truth → Prop} (hkeeps : Connectives.belnap.Keeps S) (hnone : S .neither)
      {a : String} (ha : g.Confined S a) :
      (∀ k, S ((x k).valueOf a)) ∧ S (sol.assignment.valueOf a) := by
    have hround := valueOf_mem_of_confined (s := s) rfl Connectives.belnap_monotone hkeeps hnone ha
    refine ⟨fun k => ?_, ?_⟩
    · obtain ⟨j, hj⟩ := hrun k
      rw [hj]
      exact hround j
    · rw [hassign]
      exact hround R
  refine ⟨sol, hsol, ?_, fun a _ => ⟨fun ha => ?_, fun ha => ?_⟩⟩
  · rw [hassign, s.names_afterRounds g.names_bottom]
  · exact hmem Connectives.belnap_keeps_ne_both (by decide) ha
  · exact hmem Connectives.belnap_keeps_eq_neither rfl ha

end Solver

end SelfReference
