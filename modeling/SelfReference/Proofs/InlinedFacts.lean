import SelfReference.Proofs.GapFree
import SelfReference.Proofs.Locality
import SelfReference.Proofs.Unfolding

/-!
# Facts written in place

A sentence whose formula is a literal has its value after the first round; the literal itself,
written in place of a reference to the sentence, is read in the first round.  The members of a cycle
are read as false until they have a value, so a cycle can notice that a fact arrives a round later,
and the closed-world solution can change.  It does not change where no cycle is reached that leads
to a changed formula, nor anywhere if the literal is `neither`: so a fact that is still to arrive is
read anyway.
-/

namespace SelfReference

namespace SentenceGraph

/-- Every cyclic sentence that a sentence reaches leads only to sentences that say the same in both
graphs. -/
def CyclesUntouched (g g' : SentenceGraph) (n : String) : Prop :=
  ∀ m r, Relation.ReflTransGen g.sentences.Refers n m → g.isCyclic m = true →
    Relation.ReflTransGen g.sentences.Refers m r → g'.formula? r = g.formula? r

theorem CyclesUntouched.of_refers {g g' : SentenceGraph} {n m : String}
    (h : CyclesUntouched g g' n) (hnm : g.sentences.Refers n m) : CyclesUntouched g g' m :=
  fun k r hmk hk hkr => h k r (.head hnm hmk) hk hkr

namespace UnfoldsTo

variable {e : String} {v : Truth} {g g' : SentenceGraph} (hu : UnfoldsTo e (.lit v) g g')
  {n m : String}
include hu

/-! ### Paths and cycles -/

theorem formula?_fact : g'.formula? e = some (.lit v) := by
  obtain ⟨f', hf', hff'⟩ := hu.formula? e _ hu.defined
  cases hff'
  exact hf'

theorem ne_fact_of_refers (h : g.sentences.Refers n m) : n ≠ e := by
  rintro rfl
  obtain ⟨f, hf, hm⟩ := h
  obtain rfl : f = .lit v := Option.some.inj (hf.symm.trans hu.defined)
  exact List.not_mem_nil hm

theorem refers_of_refers (h : g'.sentences.Refers n m) : g.sentences.Refers n m := by
  obtain ⟨f₁, hf₁, hm⟩ := h
  have hn : n ∈ g.names := hu.names_eq ▸ SentenceGraph.mem_names_iff.2 ⟨f₁, hf₁⟩
  obtain ⟨f, hf⟩ := SentenceGraph.mem_names_iff.1 hn
  obtain ⟨f', hf', hff'⟩ := hu.formula? n f hf
  obtain rfl : f' = f₁ := Option.some.inj (hf'.symm.trans hf₁)
  exact ⟨f, hf, (hff'.mem_occurrences hm).resolve_right List.not_mem_nil⟩

theorem refers_of_ne (h : g.sentences.Refers n m) (hm : m ≠ e) : g'.sentences.Refers n m := by
  obtain ⟨f, hf, hmem⟩ := h
  obtain ⟨f', hf', hff'⟩ := hu.formula? n f hf
  exact ⟨f', hf', hff'.mem_occurrences_of_ne hmem hm⟩

theorem dependsOn_of_dependsOn (h : g'.DependsOn n m) : g.DependsOn n m :=
  Relation.TransGen.mono (fun _ _ hedge => hu.refers_of_refers hedge) _ _ h

theorem dependsOn_of_ne (h : g.DependsOn n m) (hm : m ≠ e) : g'.DependsOn n m := by
  -- a fact refers to nothing, so a path that does not end in it does not pass through it
  induction h with
  | single hedge => exact .single (hu.refers_of_ne hedge hm)
  | tail _ hedge ih => exact (ih (hu.ne_fact_of_refers hedge)).tail (hu.refers_of_ne hedge hm)

theorem ne_fact_of_dependsOn (h : g.DependsOn n m) : n ≠ e := by
  obtain ⟨k, hedge, -⟩ := Relation.TransGen.head'_iff.1 h
  exact hu.ne_fact_of_refers hedge

theorem shareCycle_eq (n m : String) : g'.shareCycle n m = g.shareCycle n m := by
  rw [Bool.eq_iff_iff, shareCycle_iff, shareCycle_iff]
  constructor
  · rintro ⟨hnm, hmn⟩
    exact ⟨hu.dependsOn_of_dependsOn hnm, hu.dependsOn_of_dependsOn hmn⟩
  · rintro ⟨hnm, hmn⟩
    exact ⟨hu.dependsOn_of_ne hnm (hu.ne_fact_of_dependsOn hmn),
      hu.dependsOn_of_ne hmn (hu.ne_fact_of_dependsOn hnm)⟩

theorem isCyclic_eq (n : String) : g'.isCyclic n = g.isCyclic n := by
  rw [Bool.eq_iff_iff, isCyclic_iff_shareCycle, isCyclic_iff_shareCycle, hu.shareCycle_eq]

theorem shareCycle_fact (n : String) : g.shareCycle n e = false := by
  refine Bool.eq_false_iff.2 fun h => ?_
  exact hu.ne_fact_of_dependsOn (shareCycle_iff.1 h).2 rfl

theorem isCyclic_fact : g.isCyclic e = false := by
  refine Bool.eq_false_iff.2 fun h => ?_
  exact hu.ne_fact_of_dependsOn (isCyclic_iff.1 h) rfl

/-! ### Sentences that reach no touched cycle -/

section Stable

variable {s : Solver} (hmono : s.connectives.Monotone) {R R' : Nat}
  (hR : R ∈ s.stableAfter g g.bottom) (hR' : R' ∈ s.stableAfter g' g'.bottom)
include hmono hR'

theorem valueOf_stable_fact : (s.afterRounds g' g'.bottom R').valueOf e = v :=
  Solver.valueOf_stable_of_not_isCyclic hmono hR' hu.formula?_fact
    (hu.isCyclic_eq e ▸ hu.isCyclic_fact)

include hR

theorem valueOf_stable_eq (hn : n ∈ g.names) (huntouched : CyclesUntouched g g' n) :
    (s.afterRounds g' g'.bottom R').valueOf n = (s.afterRounds g g.bottom R).valueOf n := by
  refine g.induction_below (P := fun n => CyclesUntouched g g' n →
    (s.afterRounds g' g'.bottom R').valueOf n = (s.afterRounds g g.bottom R).valueOf n)
    (fun n f hf ih hn => ?_) hn huntouched
  by_cases hcyclic : g.isCyclic n = true
  · -- the cycle is the same in both graphs, with all that it leads to
    have hround := valueOf_afterRounds_of_agree s (SentenceGraph.mem_names_iff.2 ⟨f, hf⟩)
      (fun r hr => hn n r .refl hcyclic hr) (max R R')
    rw [s.afterRounds_eq_of_le hR (le_max_left ..), s.afterRounds_eq_of_le hR' (le_max_right ..)]
      at hround
    exact hround
  · have hoff : g.isCyclic n = false := Bool.eq_false_iff.2 hcyclic
    have hoff' : g'.isCyclic n = false := (hu.isCyclic_eq n).trans hoff
    obtain ⟨f', hf', hff'⟩ := hu.formula? n f hf
    have hsame : ∀ m ∈ f.occurrences, (s.afterRounds g' g'.bottom R').valueOf m =
        (s.afterRounds g g.bottom R).valueOf m := by
      intro m hm
      have hrefers : g.sentences.Refers n m := ⟨f, hf, hm⟩
      exact ih m hrefers (shareCycle_of_not_isCyclic hoff m) (hn.of_refers hrefers)
    calc (s.afterRounds g' g'.bottom R').valueOf n
        = f'.eval s.connectives (s.afterRounds g' g'.bottom R').valueOf :=
          Solver.valueOf_stable_of_not_isCyclic hmono hR' hf' hoff'
      _ = f.eval s.connectives (s.afterRounds g' g'.bottom R').valueOf :=
          hff'.eval_eq (hu.valueOf_stable_fact hmono hR').symm
      _ = f.eval s.connectives (s.afterRounds g g.bottom R).valueOf := f.eval_congr _ hsame
      _ = (s.afterRounds g g.bottom R).valueOf n :=
          (Solver.valueOf_stable_of_not_isCyclic hmono hR hf hoff).symm

end Stable

end UnfoldsTo

/-! ### Facts without evidence -/

section Neither

variable {e : String} {g g' : SentenceGraph} (hu : UnfoldsTo e (.lit .neither) g g') (s : Solver)
include hu

theorem valueOf_afterRounds_neither (k : Nat) :
    (s.afterRounds g g.bottom k).valueOf e = .neither := by
  induction k with
  | zero => exact g.valueOf_bottom e
  | succ k ih =>
    rw [s.afterRounds_succ, s.valueOf_step hu.defined, ih]
    rfl

theorem reading_unfolded (n : String) (a : Assignment) : s.reading g' n a = s.reading g n a := by
  unfold Solver.reading Solver.cycleClosed
  simp only [hu.shareCycle_eq]

theorem reading_fact (n : String) (a : Assignment) : s.reading g n a e = a.valueOf e := by
  unfold Solver.reading
  cases s.config.grounding with
  | closedWorld =>
    show Solver.cycleClosed g n a e = a.valueOf e
    rw [Solver.cycleClosed, if_neg (by simp [hu.shareCycle_fact n])]
  | openWorld => rfl

theorem step_unfolded {a : Assignment} (ha : a.valueOf e = .neither) :
    (s.step g' a).next = (s.step g a).next := by
  refine Assignment.ext_valueOf (by rw [s.names_step, s.names_step, hu.names_eq]) fun n hn => ?_
  rw [s.names_step, hu.names_eq] at hn
  obtain ⟨f, hf⟩ := SentenceGraph.mem_names_iff.1 hn
  obtain ⟨f', hf', hff'⟩ := hu.formula? n f hf
  have hfact : (Formula.lit .neither).eval s.connectives (s.reading g n a) = s.reading g n a e :=
    ((reading_fact hu s n a).trans ha).symm
  rw [s.valueOf_step hf', s.valueOf_step hf, reading_unfolded hu, hff'.eval_eq hfact]

theorem afterRounds_unfolded (k : Nat) :
    s.afterRounds g' g'.bottom k = s.afterRounds g g.bottom k := by
  induction k with
  | zero =>
    show Assignment.bottom g'.names = Assignment.bottom g.names
    rw [hu.names_eq]
  | succ k ih =>
    rw [s.afterRounds_succ, s.afterRounds_succ, ih,
      step_unfolded hu s (valueOf_afterRounds_neither hu s k)]

theorem stable_unfolded {R R' : Nat} (hR : R ∈ s.stableAfter g g.bottom)
    (hR' : R' ∈ s.stableAfter g' g'.bottom) :
    s.afterRounds g' g'.bottom R' = s.afterRounds g g.bottom R := by
  rw [← s.afterRounds_eq_of_le hR' (Nat.le_max_right R R'), afterRounds_unfolded hu,
    s.afterRounds_eq_of_le hR (Nat.le_max_left R R')]

end Neither

/-! ### Solutions -/

/-- A literal written in place of references to a sentence that says it leaves the closed-world
value of every sentence that reaches no touched cycle, and all values if it is `neither`.  No value
falls below the one under open grounding, which is the same for both graphs. -/
theorem solve_closedWorld_inlined {ds ds' : List (String × Formula)} {g : SentenceGraph}
    {e : String} {v : Truth} (hg : ofDefinitions ds = .ok g) (he : (e, .lit v) ∈ ds)
    (hu : UnfoldsIn e (.lit v) ds ds') :
    ∃ g', ofDefinitions ds' = .ok g' ∧ ∀ c : SolverConfig,
      let s (r : Grounding) : Solver := ⟨{ c with grounding := r, maxIterations := none }, .belnap⟩
      ∃ sol sol' least least',
        (s .closedWorld).solve g = .ok sol ∧ (s .closedWorld).solve g' = .ok sol' ∧
        (s .openWorld).solve g = .ok least ∧ (s .openWorld).solve g' = .ok least' ∧
        sol.assignment.names = g.names ∧ sol'.assignment.names = g.names ∧
        (∀ n ∈ g.names, CyclesUntouched g g' n →
          sol'.assignment.valueOf n = sol.assignment.valueOf n) ∧
        (v = .neither → sol'.assignment = sol.assignment) ∧
        least'.assignment = least.assignment ∧
        ∀ n, least.assignment.valueOf n ≤ sol.assignment.valueOf n ∧
          least.assignment.valueOf n ≤ sol'.assignment.valueOf n := by
  obtain ⟨g', hg', hunfolds⟩ := exists_unfoldsTo hg he hu
  refine ⟨g', hg', fun c => ?_⟩
  intro s
  have hverify (r : Grounding) : (s r).verify = .ok () := Solver.verify_of_belnap rfl
  have hmono (r : Grounding) : (s r).connectives.Monotone := Connectives.belnap_monotone
  obtain ⟨R, sol, hR, hsol, hassign⟩ := Solver.exists_solution (hverify .closedWorld) rfl g
  obtain ⟨R', sol', hR', hsol', hassign'⟩ := Solver.exists_solution (hverify .closedWorld) rfl g'
  obtain ⟨L, least, -, hleast, hassignLeast⟩ := Solver.exists_solution (hverify .openWorld) rfl g
  obtain ⟨L', least', -, hleast', hassignLeast'⟩ :=
    Solver.exists_solution (hverify .openWorld) rfl g'
  obtain ⟨least₁, least₁', hleast₁, hleast₁', hsame, -⟩ :=
    hunfolds.exists_solutions (s := s .openWorld) rfl (hmono _) (hverify _) rfl
  obtain rfl : least₁ = least := Except.ok.inj (hleast₁.symm.trans hleast)
  obtain rfl : least₁' = least' := Except.ok.inj (hleast₁'.symm.trans hleast')
  refine ⟨sol, sol', least₁, least₁', hsol, hsol', hleast, hleast', ?_, ?_,
    fun n hn huntouched => ?_, fun hv => ?_, hsame, fun n => ⟨?_, ?_⟩⟩
  · rw [hassign, (s .closedWorld).names_afterRounds g.names_bottom]
  · rw [hassign', (s .closedWorld).names_afterRounds g'.names_bottom, hunfolds.names_eq]
  · rw [hassign, hassign']
    exact hunfolds.valueOf_stable_eq (hmono _) hR.1 hR'.1 hn huntouched
  · subst hv
    rw [hassign, hassign']
    exact stable_unfolded hunfolds _ hR.1 hR'.1
  · rw [hassign, hassignLeast]
    exact Solver.afterRounds_le_of_fixed (s := s .openWorld) (t := s .closedWorld) rfl (hmono _) rfl
      ((s .closedWorld).step_of_mem_stableAfter hR.1) L n
  · rw [← hsame, hassign', hassignLeast']
    exact Solver.afterRounds_le_of_fixed (s := s .openWorld) (t := s .closedWorld) rfl (hmono _) rfl
      ((s .closedWorld).step_of_mem_stableAfter hR'.1) L' n

theorem solve_closedWorld_inlined_denial :
    let ds : List (String × Formula) :=
      [("a", .disj (.ref "e") (.ref "b")), ("b", .conj (.neg (.ref "a")) (.ref "d")),
        ("c", .neg (.ref "e")), ("d", .lit .verum), ("e", .lit .verum)]
    let ds' : List (String × Formula) :=
      [("a", .disj (.lit .verum) (.ref "b")), ("b", .conj (.neg (.ref "a")) (.ref "d")),
        ("c", .neg (.lit .verum)), ("d", .lit .verum), ("e", .lit .verum)]
    ∃ g g' sol sol', ofDefinitions ds = .ok g ∧ ("e", .lit .verum) ∈ ds ∧
      UnfoldsIn "e" (.lit .verum) ds ds' ∧ ofDefinitions ds' = .ok g' ∧
      (⟨{ grounding := .closedWorld }, .belnap⟩ : Solver).solve g = .ok sol ∧
      (⟨{ grounding := .closedWorld }, .belnap⟩ : Solver).solve g' = .ok sol' ∧
      "c" ∈ g.names ∧ CyclesUntouched g g' "c" ∧
      sol'.assignment.valueOf "c" = sol.assignment.valueOf "c" := by
  intro ds ds'
  obtain ⟨g, hg⟩ : ∃ g, ofDefinitions ds = .ok g :=
    exists_ofDefinitions (by decide +kernel) (by decide +kernel)
  have he : ("e", .lit .verum) ∈ ds := by simp [ds]
  have hu : UnfoldsIn "e" (.lit .verum) ds ds' :=
    .cons ⟨rfl, .disj .here (.ref _)⟩ <| .cons ⟨rfl, .conj (.neg (.ref _)) (.ref _)⟩ <|
      .cons ⟨rfl, .neg .here⟩ <| .cons ⟨rfl, .lit _⟩ <| .cons ⟨rfl, .lit _⟩ .nil
  obtain ⟨g', hg', hsolve⟩ := solve_closedWorld_inlined hg he hu
  obtain ⟨sol, sol', -, -, hsol, hsol', -, -, -, -, hvalue, -⟩ := hsolve {}
  have hc : "c" ∈ g.names := (mem_names_ofDefinitions hg).2 (by simp [ds])
  have hrefers (n m : String) (h : g.sentences.Refers n m) (hn : n = "c" ∨ n = "e") :
      n = "c" ∧ m = "e" := by
    rw [refers_eq_refersIn hg] at h
    obtain ⟨f, hf, hm⟩ := h
    simp only [ds, List.mem_cons, List.not_mem_nil, or_false, Prod.mk.injEq] at hf
    rcases hn with rfl | rfl <;> simp_all [Formula.occurrences]
  have hreached (m : String) (h : Relation.ReflTransGen g.sentences.Refers "c" m) :
      m = "c" ∨ m = "e" := by
    induction h with
    | refl => exact Or.inl rfl
    | tail _ hedge ih => exact Or.inr (hrefers _ _ hedge ih).2
  have hoff (m : String) (hm : m = "c" ∨ m = "e") : ¬ g.DependsOn m m := by
    intro h
    obtain ⟨k, hedge, hback⟩ := Relation.TransGen.head'_iff.1 h
    obtain ⟨rfl, rfl⟩ := hrefers m k hedge hm
    -- the path back would have to leave the fact
    rcases hback.cases_head with heq | ⟨k, hedge, -⟩
    · exact absurd heq (by decide)
    · exact absurd (hrefers _ k hedge (Or.inr rfl)).1 (by decide)
  have huntouched : CyclesUntouched g g' "c" := fun m _ hreach hcyclic _ =>
    absurd (isCyclic_iff.1 hcyclic) (hoff m (hreached m hreach))
  exact ⟨g, g', sol, sol', hg, he, hu, hg', hsol, hsol', hc, huntouched, hvalue "c" hc huntouched⟩

/-! ### Facts on a cycle -/

/-- The value that solving definitions gives to a name. -/
def solvedValue? (s : Solver) (ds : List (String × Formula)) (n : String) : Option Truth :=
  ((ofDefinitions ds).bind s.solve).toOption.map fun sol => sol.assignment.valueOf n

theorem exists_solution_of_solvedValue? {s : Solver} {ds : List (String × Formula)} {n : String}
    {v : Truth} (h : solvedValue? s ds n = some v) :
    ∃ g sol, ofDefinitions ds = .ok g ∧ s.solve g = .ok sol ∧ sol.assignment.valueOf n = v := by
  unfold solvedValue? at h
  cases hg : ofDefinitions ds with
  | error err => simp [hg, Except.bind, Except.toOption] at h
  | ok g =>
    cases hsol : s.solve g with
    | error err => simp [hg, hsol, Except.bind, Except.toOption] at h
    | ok sol =>
      refine ⟨g, sol, rfl, hsol, ?_⟩
      simpa [hg, hsol, Except.bind, Except.toOption] using h

/-- A cycle notices when a fact arrives: while `a` waits for `e` it is read as false for a second
round, in which `d` has arrived, and so `b` is told true before it is told false. -/
theorem inlined_fact_changes_value :
    let ds : List (String × Formula) :=
      [("a", .disj (.ref "e") (.ref "b")), ("b", .conj (.neg (.ref "a")) (.ref "d")),
        ("d", .lit .verum), ("e", .lit .verum)]
    let ds' : List (String × Formula) :=
      [("a", .disj (.lit .verum) (.ref "b")), ("b", .conj (.neg (.ref "a")) (.ref "d")),
        ("d", .lit .verum), ("e", .lit .verum)]
    ("e", .lit .verum) ∈ ds ∧ UnfoldsIn "e" (.lit .verum) ds ds' ∧
      (∃ g sol, ofDefinitions ds = .ok g ∧ (⟨{}, .belnap⟩ : Solver).solve g = .ok sol ∧
        sol.assignment.valueOf "b" = .both) ∧
      ∃ g' sol', ofDefinitions ds' = .ok g' ∧ (⟨{}, .belnap⟩ : Solver).solve g' = .ok sol' ∧
        sol'.assignment.valueOf "b" = .falsum := by
  intro ds ds'
  refine ⟨by simp [ds], ?_, exists_solution_of_solvedValue? (by decide +kernel),
    exists_solution_of_solvedValue? (by decide +kernel)⟩
  exact .cons ⟨rfl, .disj .here (.ref _)⟩ <| .cons ⟨rfl, .conj (.neg (.ref _)) (.ref _)⟩ <|
    .cons ⟨rfl, .lit _⟩ <| .cons ⟨rfl, .lit _⟩ .nil

end SentenceGraph

end SelfReference
