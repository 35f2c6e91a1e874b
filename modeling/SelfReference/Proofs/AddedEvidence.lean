import SelfReference.Proofs.ReachedLiterals

/-!
# Literals with more evidence

Where literals are replaced by ones that hold more evidence and nothing else is touched, formulas
say more of any valuation.  Under open grounding and monotone connectives every round of the graph
with more evidence is then ahead of the same round of the other one, whichever of the two is the
first to stand still.
-/

namespace SelfReference

/-- The second formula has the shape and the references of the first one, and no literal of it holds
less evidence. -/
inductive Formula.Enriched : Formula → Formula → Prop
  | lit {t t' : Truth} (h : t ≤ t') : Enriched (lit t) (lit t')
  | ref (n : String) : Enriched (ref n) (ref n)
  | neg {f f' : Formula} (hf : Enriched f f') : Enriched (neg f) (neg f')
  | conj {f f' g g' : Formula} (hf : Enriched f f') (hg : Enriched g g') :
    Enriched (conj f g) (conj f' g')
  | disj {f f' g g' : Formula} (hf : Enriched f f') (hg : Enriched g g') :
    Enriched (disj f g) (disj f' g')

namespace Formula.Enriched

variable {f f' : Formula}

theorem occurrences_eq (h : Enriched f f') : f'.occurrences = f.occurrences := by
  induction h with
  | lit _ => rfl
  | ref n => rfl
  | neg _ ih => exact ih
  | conj _ _ ihf ihg | disj _ _ ihf ihg => simp only [occurrences, ihf, ihg]

/-- More evidence in the literals and about the names gives more evidence about the formula. -/
theorem eval_le (h : Enriched f f') {c : Connectives} (hc : c.Monotone) {v w : Valuation}
    (hvw : v ≤ w) : f.eval c v ≤ f'.eval c w := by
  induction h with
  | lit ht => exact ht
  | ref n => exact hvw n
  | neg _ ih => exact hc.neg _ _ ih
  | conj _ _ ihf ihg => exact hc.conj _ _ _ _ ihf ihg
  | disj _ _ ihf ihg => exact hc.disj _ _ _ _ ihf ihg

end Formula.Enriched

theorem Truth.join_le_join {a b a' b' : Truth} (h : a ≤ b) (h' : a' ≤ b') :
    a.join a' ≤ b.join b' := by
  obtain ⟨hb, hb'⟩ := Truth.join_le_iff.1 (le_refl (b.join b'))
  exact Truth.join_le_iff.2 ⟨le_trans h hb, le_trans h' hb'⟩

namespace Solver

section Rounds

variable {s : Solver} (hopen : s.config.grounding = .openWorld) (hmono : s.connectives.Monotone)
  {g g' : SentenceGraph} (hg : SentenceGraph.Corresponds Formula.Enriched g g')
include hopen hmono hg

theorem step_le_step {a b : Assignment} (h : a.valueOf ≤ b.valueOf) :
    (s.step g a).next.valueOf ≤ (s.step g' b).next.valueOf := by
  refine Assignment.valueOf_le fun n hn => ?_
  rw [s.names_step] at hn
  obtain ⟨f, hf⟩ := SentenceGraph.mem_names_iff.1 hn
  obtain ⟨f', hf', hff'⟩ := hg.formula? n f hf
  rw [valueOf_step_open hopen hf, valueOf_step_open hopen hf']
  exact Truth.join_le_join (h n) (hff'.eval_le hmono h)

theorem afterRounds_le_of_enriched {a b : Assignment} (h : a.valueOf ≤ b.valueOf) (k : Nat) :
    (s.afterRounds g a k).valueOf ≤ (s.afterRounds g' b k).valueOf := by
  induction k with
  | zero => exact h
  | succ k ih => exact step_le_step hopen hmono hg ih

/-- The runs may end after different numbers of rounds; each stands still from then on. -/
theorem stable_le_of_enriched {R R' : Nat} (hR : R ∈ s.stableAfter g g.bottom)
    (hR' : R' ∈ s.stableAfter g' g'.bottom) :
    (s.afterRounds g g.bottom R).valueOf ≤ (s.afterRounds g' g'.bottom R').valueOf := by
  have hround := afterRounds_le_of_enriched hopen hmono hg (g.bottom_le g'.bottom.valueOf)
    (max R R')
  rw [s.afterRounds_eq_of_le hR (le_max_left R R'), s.afterRounds_eq_of_le hR' (le_max_right R R')]
    at hround
  exact hround

end Rounds

/-- More evidence in gives more evidence out: under open grounding and connectives without
violations, a graph whose literals hold more evidence gives every sentence a value with more
evidence, after every number of rounds and in the solution. -/
theorem solve_open_enriched (c : SolverConfig) (ops : Connectives) (hops : ops.violations = [])
    {g g' : SentenceGraph} (hg : SentenceGraph.Corresponds Formula.Enriched g g') :
    let s : Solver := ⟨{ c with grounding := .openWorld, maxIterations := none }, ops⟩
    (∀ k n, (s.afterRounds g g.bottom k).valueOf n ≤ (s.afterRounds g' g'.bottom k).valueOf n) ∧
    ∃ sol sol', s.solve g = .ok sol ∧ s.solve g' = .ok sol' ∧
      sol.assignment.names = g.names ∧ sol'.assignment.names = g.names ∧
      ∀ n, sol.assignment.valueOf n ≤ sol'.assignment.valueOf n := by
  intro s
  have hmono : s.connectives.Monotone := ops.violations_eq_nil_iff.1 hops
  have hverify : s.verify = .ok () := verify_of_violations hops
  obtain ⟨R, sol, hR, hsol, hassign⟩ := exists_solution hverify rfl g
  obtain ⟨R', sol', hR', hsol', hassign'⟩ := exists_solution hverify rfl g'
  refine ⟨fun k => ?_, sol, sol', hsol, hsol', ?_, ?_, ?_⟩
  · exact afterRounds_le_of_enriched (s := s) rfl hmono hg (g.bottom_le _) k
  · rw [hassign, s.names_afterRounds g.names_bottom]
  · rw [hassign', s.names_afterRounds g'.names_bottom, hg.names_eq]
  · rw [hassign, hassign']
    exact stable_le_of_enriched (s := s) rfl hmono hg hR.1 hR'.1

/-- A fact that arrives at a sentence that doubts itself. -/
theorem solve_open_enriched_doubt :
    let ds (t : Truth) : List (String × Formula) :=
      [("doubt", .disj (.ref "fact") (.neg (.ref "doubt"))), ("fact", .lit t)]
    ∃ g g' sol sol', SentenceGraph.ofDefinitions (ds .neither) = .ok g ∧
      SentenceGraph.ofDefinitions (ds .verum) = .ok g' ∧
      Connectives.belnap.violations = [] ∧ SentenceGraph.Corresponds Formula.Enriched g g' ∧
      (⟨{ grounding := .openWorld }, .belnap⟩ : Solver).solve g = .ok sol ∧
      (⟨{ grounding := .openWorld }, .belnap⟩ : Solver).solve g' = .ok sol' ∧
      sol.assignment.valueOf "doubt" ≤ sol'.assignment.valueOf "doubt" := by
  intro ds
  obtain ⟨g, hds⟩ : ∃ g, SentenceGraph.ofDefinitions (ds .neither) = .ok g :=
    SentenceGraph.exists_ofDefinitions (by decide +kernel) (by decide +kernel)
  have hrel : List.Forall₂ (fun d d' => d'.1 = d.1 ∧ Formula.Enriched d.2 d'.2)
      (ds .neither) (ds .verum) :=
    .cons ⟨rfl, .disj (.ref _) (.neg (.ref _))⟩ <| .cons ⟨rfl, .lit (by decide)⟩ .nil
  obtain ⟨-, -, hresolved⟩ := SentenceGraph.exists_ofDefinitions_iff.1 ⟨g, hds⟩
  obtain ⟨g', hds', hg⟩ := SentenceGraph.exists_corresponds hrel hds
    fun n f f' hf hff' r hr => hresolved (n, f) hf r (hff'.occurrences_eq ▸ hr)
  obtain ⟨-, sol, sol', hsol, hsol', -, -, hle⟩ :=
    solve_open_enriched {} .belnap Connectives.belnap_violations hg
  exact ⟨g, g', sol, sol', hds, hds', Connectives.belnap_violations, hg, hsol, hsol', hle "doubt"⟩

end Solver

end SelfReference
