import SelfReference.Proofs.ReachedLiterals

/-!
# Unfolded definitions

References to a sentence may be replaced by what the sentence says.  Under open grounding and
monotone connectives this changes no solution: the least assignment of the one graph agrees with
every formula of the other, and each round of the unfolded graph is ahead of the same round of the
original, so that it does not take longer either.
-/

namespace SelfReference

/-! ### Formulas -/

namespace Formula

/-- The second formula is the first one with some of the references to `b` replaced by `h`. -/
inductive Unfolds (b : String) (h : Formula) : Formula → Formula → Prop
  | lit (t : Truth) : Unfolds b h (lit t) (lit t)
  | ref (n : String) : Unfolds b h (ref n) (ref n)
  | here : Unfolds b h (ref b) h
  | neg {f f' : Formula} (hf : Unfolds b h f f') : Unfolds b h (neg f) (neg f')
  | conj {f f' g g' : Formula} (hf : Unfolds b h f f') (hg : Unfolds b h g g') :
    Unfolds b h (conj f g) (conj f' g')
  | disj {f f' g g' : Formula} (hf : Unfolds b h f f') (hg : Unfolds b h g g') :
    Unfolds b h (disj f g) (disj f' g')

namespace Unfolds

variable {b : String} {h f f' : Formula} {c : Connectives} {v : Valuation}

theorem mem_occurrences (hu : Unfolds b h f f') {n : String} (hn : n ∈ f'.occurrences) :
    n ∈ f.occurrences ∨ n ∈ h.occurrences := by
  induction hu with
  | lit t => exact Or.inl hn
  | ref m => exact Or.inl hn
  | here => exact Or.inr hn
  | neg _ ih => exact ih hn
  | conj _ _ ihf ihg | disj _ _ ihf ihg =>
    simp only [occurrences, List.mem_append] at hn ⊢
    rcases hn with hn | hn
    · exact (ihf hn).imp_left Or.inl
    · exact (ihg hn).imp_left Or.inr

theorem mem_occurrences_of_ne (hu : Unfolds b h f f') {n : String} (hn : n ∈ f.occurrences)
    (hne : n ≠ b) : n ∈ f'.occurrences := by
  induction hu with
  | lit t => exact hn
  | ref m => exact hn
  | here => exact absurd (List.mem_singleton.1 hn) hne
  | neg _ ih => exact ih hn
  | conj _ _ ihf ihg | disj _ _ ihf ihg =>
    simp only [occurrences, List.mem_append] at hn ⊢
    exact hn.imp ihf ihg

theorem eval_eq (hu : Unfolds b h f f') (hb : h.eval c v = v b) : f'.eval c v = f.eval c v := by
  induction hu with
  | lit t => rfl
  | ref n => rfl
  | here => exact hb
  | neg _ ih => simp only [eval, ih]
  | conj _ _ ihf ihg | disj _ _ ihf ihg => simp only [eval, ihf, ihg]

theorem eval_le (hu : Unfolds b h f f') (hc : c.Monotone) (hb : v b ≤ h.eval c v) :
    f.eval c v ≤ f'.eval c v := by
  induction hu with
  | lit t => exact le_rfl
  | ref n => exact le_rfl
  | here => exact hb
  | neg _ ih => exact hc.neg _ _ ih
  | conj _ _ ihf ihg => exact hc.conj _ _ _ _ ihf ihg
  | disj _ _ ihf ihg => exact hc.disj _ _ _ _ ihf ihg

end Unfolds

end Formula

namespace SentenceGraph

/-! ### Definitions and graphs -/

/-- The same names are defined, with some of the references to `b` in any formulas replaced by
`h`. -/
def UnfoldsIn (b : String) (h : Formula) (ds ds' : List (String × Formula)) : Prop :=
  List.Forall₂ (fun d d' => d'.1 = d.1 ∧ Formula.Unfolds b h d.2 d'.2) ds ds'

/-- A graph over the same names, with some of the references to `b` replaced by its formula `h`. -/
structure UnfoldsTo (b : String) (h : Formula) (g g' : SentenceGraph) : Prop where
  defined : g.formula? b = some h
  names_eq : g'.names = g.names
  formula? : ∀ n f, g.formula? n = some f → ∃ f', g'.formula? n = some f' ∧ Formula.Unfolds b h f f'

section Definitions

variable {b : String} {h : Formula} {ds ds' : List (String × Formula)}

/-- Unfolding refers to nothing new, so that the unfolded definitions make a graph as well. -/
theorem exists_unfoldsTo {g : SentenceGraph} (hg : ofDefinitions ds = .ok g) (hb : (b, h) ∈ ds)
    (hu : UnfoldsIn b h ds ds') : ∃ g', ofDefinitions ds' = .ok g' ∧ UnfoldsTo b h g g' := by
  obtain ⟨-, -, hresolved⟩ := exists_ofDefinitions_iff.1 ⟨g, hg⟩
  obtain ⟨g', hg', hnames, hformula⟩ := exists_corresponds hu hg fun n f f' hf hff' r hr => by
    rcases hff'.mem_occurrences hr with hr | hr
    · exact hresolved (n, f) hf r hr
    · exact hresolved (b, h) hb r hr
  exact ⟨g', hg', (formula?_eq_some_iff hg).2 hb, hnames, hformula⟩

end Definitions

/-! ### Rounds under open grounding -/

namespace UnfoldsTo

variable {b : String} {h : Formula} {g g' : SentenceGraph} (hu : UnfoldsTo b h g g')
include hu

theorem size_eq : g'.size = g.size := by
  rw [← g'.length_names, ← g.length_names, hu.names_eq]

theorem closed_of_closed {c : Connectives} {v : Valuation} (hclosed : g.Closed c v)
    (hsupp : g.Supported c v) : g'.Closed c v := by
  intro n f' hf'
  have hn : n ∈ g.names := hu.names_eq ▸ SentenceGraph.mem_names_iff.2 ⟨f', hf'⟩
  obtain ⟨f, hf⟩ := SentenceGraph.mem_names_iff.1 hn
  obtain ⟨f₁, hf₁, hff'⟩ := hu.formula? n f hf
  obtain rfl : f₁ = f' := Option.some.inj (hf₁.symm.trans hf')
  have hb : h.eval c v = v b :=
    le_antisymm (hclosed b h hu.defined) (hsupp b h hu.defined)
  rw [hff'.eval_eq hb]
  exact hclosed n f hf

variable {s : Solver} (hopen : s.config.grounding = .openWorld) (hmono : s.connectives.Monotone)
include hopen hmono

/-- The unfolded graph is ahead: it reads what the formula of a name says before the name has the
value. -/
theorem afterRounds_le (k : Nat) :
    (s.afterRounds g g.bottom k).valueOf ≤ (s.afterRounds g' g'.bottom k).valueOf := by
  induction k with
  | zero => exact g.bottom_le _
  | succ k ih =>
    refine Assignment.valueOf_le fun n hn => ?_
    rw [s.names_afterRounds g.names_bottom] at hn
    obtain ⟨f, hf⟩ := SentenceGraph.mem_names_iff.1 hn
    obtain ⟨f', hf', hff'⟩ := hu.formula? n f hf
    have hb := Solver.supported_afterRounds hopen hmono k b h hu.defined
    calc (s.afterRounds g g.bottom (k + 1)).valueOf n
        = f.eval s.connectives (s.afterRounds g g.bottom k).valueOf :=
          Solver.valueOf_afterRounds_succ hopen hmono hf k
      _ ≤ f'.eval s.connectives (s.afterRounds g g.bottom k).valueOf := hff'.eval_le hmono hb
      _ ≤ f'.eval s.connectives (s.afterRounds g' g'.bottom k).valueOf :=
          Formula.eval_mono hmono ih f'
      _ = (s.afterRounds g' g'.bottom (k + 1)).valueOf n :=
          (Solver.valueOf_afterRounds_succ hopen hmono hf' k).symm

theorem afterRounds_le_of_stable {R : Nat} (hR : R ∈ s.stableAfter g g.bottom) (k : Nat) :
    (s.afterRounds g' g'.bottom k).valueOf ≤ (s.afterRounds g g.bottom R).valueOf := by
  have hclosed := Solver.closed_of_step_eq hopen (s.step_of_mem_stableAfter hR)
  have hsupp := Solver.supported_afterRounds (g := g) hopen hmono R
  exact Solver.afterRounds_le_of_closed hopen hmono (hu.closed_of_closed hclosed hsupp)
    (g'.bottom_le _) k

theorem afterRounds_eq_of_stable {R : Nat} (hR : R ∈ s.stableAfter g g.bottom) {k : Nat}
    (hk : R - 1 ≤ k) : s.afterRounds g' g'.bottom k = s.afterRounds g g.bottom R := by
  have hlast : s.afterRounds g g.bottom k = s.afterRounds g g.bottom R := by
    rcases Nat.lt_or_ge k R with hlt | hge
    · obtain rfl : k = R - 1 := by omega
      exact hR.2.symm
    · exact s.afterRounds_eq_of_le hR hge
  have hnames : (s.afterRounds g' g'.bottom k).names = (s.afterRounds g g.bottom R).names := by
    rw [s.names_afterRounds g'.names_bottom, s.names_afterRounds g.names_bottom, hu.names_eq]
  refine Assignment.ext_valueOf hnames fun n _ => le_antisymm ?_ ?_
  · exact hu.afterRounds_le_of_stable hopen hmono hR k n
  · rw [← hlast]
    exact hu.afterRounds_le hopen hmono k n

theorem mem_stableAfter {R : Nat} (hR : R ∈ s.stableAfter g g.bottom) :
    R ∈ s.stableAfter g' g'.bottom := by
  refine ⟨hR.1, ?_⟩
  rw [hu.afterRounds_eq_of_stable hopen hmono hR (by omega),
    hu.afterRounds_eq_of_stable hopen hmono hR le_rfl]

theorem exists_solutions (hverify : s.verify = .ok ()) (hbound : s.config.maxIterations = none) :
    ∃ sol sol', s.solve g = .ok sol ∧ s.solve g' = .ok sol' ∧
      sol'.assignment = sol.assignment ∧ sol'.rounds ≤ sol.rounds := by
  obtain ⟨R, sol, hR, hsol, hassign, hrounds⟩ := Solver.exists_solution_rounds hverify hbound g
  obtain ⟨R', sol', hR', hsol', hassign', hrounds'⟩ :=
    Solver.exists_solution_rounds hverify hbound g'
  have hmem : R ∈ s.stableAfter g' g'.bottom := hu.mem_stableAfter hopen hmono hR.1
  have hle : R' ≤ R := hR'.2 hmem
  refine ⟨sol, sol', hsol, hsol', ?_, ?_⟩
  · rw [hassign', hassign, ← s.afterRounds_eq_of_le hR'.1 hle,
      hu.afterRounds_eq_of_stable hopen hmono hR.1 (by omega)]
  · rw [hrounds', hrounds, hu.size_eq]
    split <;> omega

end UnfoldsTo

/-- Replacing references to a sentence by what it says, anywhere in the formulas, its own included,
gives a graph with the same open-grounding solution, found in no more rounds. -/
theorem solve_open_unfolded {ds ds' : List (String × Formula)} {g : SentenceGraph} {b : String}
    {h : Formula} (hg : ofDefinitions ds = .ok g) (hb : (b, h) ∈ ds) (hu : UnfoldsIn b h ds ds') :
    ∃ g', ofDefinitions ds' = .ok g' ∧
      ∀ (c : SolverConfig) (ops : Connectives), ops.violations = [] →
        let s : Solver := ⟨{ c with grounding := .openWorld, maxIterations := none }, ops⟩
        ∃ sol sol', s.solve g = .ok sol ∧ s.solve g' = .ok sol' ∧
          sol'.assignment = sol.assignment ∧ sol'.rounds ≤ sol.rounds := by
  obtain ⟨g', hg', hunfolds⟩ := exists_unfoldsTo hg hb hu
  refine ⟨g', hg', fun c ops hops => ?_⟩
  exact hunfolds.exists_solutions rfl (ops.violations_eq_nil_iff.1 hops)
    (Solver.verify_of_violations hops) rfl

theorem solve_open_unfolded_doubt :
    let doubt : Formula := .disj (.ref "fact") (.neg (.ref "doubt"))
    let ds : List (String × Formula) :=
      [("claim", .conj (.ref "doubt") (.ref "claim")), ("doubt", doubt), ("fact", .lit .verum)]
    let ds' : List (String × Formula) :=
      [("claim", .conj doubt (.ref "claim")), ("doubt", .disj (.ref "fact") (.neg doubt)),
        ("fact", .lit .verum)]
    ∃ g g' sol sol', ofDefinitions ds = .ok g ∧ ("doubt", doubt) ∈ ds ∧
      UnfoldsIn "doubt" doubt ds ds' ∧ ofDefinitions ds' = .ok g' ∧
      Connectives.belnap.violations = [] ∧
      (⟨{ grounding := .openWorld }, .belnap⟩ : Solver).solve g = .ok sol ∧
      (⟨{ grounding := .openWorld }, .belnap⟩ : Solver).solve g' = .ok sol' ∧
      sol'.assignment = sol.assignment ∧ sol'.rounds ≤ sol.rounds := by
  intro doubt ds ds'
  obtain ⟨g, hg⟩ : ∃ g, ofDefinitions ds = .ok g :=
    exists_ofDefinitions (by decide +kernel) (by decide +kernel)
  have hdoubt : ("doubt", doubt) ∈ ds := by simp [ds]
  have hu : UnfoldsIn "doubt" doubt ds ds' :=
    .cons ⟨rfl, .conj .here (.ref _)⟩ <| .cons ⟨rfl, .disj (.ref _) (.neg .here)⟩ <|
      .cons ⟨rfl, .lit _⟩ .nil
  obtain ⟨g', hg', hsolve⟩ := solve_open_unfolded hg hdoubt hu
  obtain ⟨sol, sol', hsol, hsol', hsame, hrounds⟩ :=
    hsolve {} .belnap Connectives.belnap_violations
  exact ⟨g, g', sol, sol', hg, hdoubt, hu, hg', Connectives.belnap_violations, hsol, hsol', hsame,
    hrounds⟩

end SentenceGraph

end SelfReference
