import SelfReference.Proofs.Cycles
import SelfReference.Proofs.LeastFixedPoint

/-!
# Closed-world solutions

Under closed-world grounding a sentence on a cycle reads more than there is, so a run no longer
ascends along its formulas.  Two things survive under monotone connectives: the end of the run is
closed under every formula, read exactly or as its sentence reads it, and a sentence off every
cycle ends with exactly what its formula says.
-/

namespace SelfReference

theorem Assignment.valueOf_le_closed (a : Assignment) (n : String) : a.valueOf n ≤ a.closed n := by
  unfold Assignment.closed
  split
  · rename_i hnone
    rw [hnone]
    exact Truth.neither_le _
  · exact le_rfl

theorem Assignment.closed_eq_valueOf {a : Assignment} {n : String} (h : a.valueOf n ≠ .neither) :
    a.closed n = a.valueOf n := by
  unfold Assignment.closed
  split
  · rename_i hnone
    exact absurd hnone h
  · rfl

theorem SentenceGraph.shareCycle_of_not_isCyclic {g : SentenceGraph} {n : String}
    (h : g.isCyclic n = false) (m : String) : g.shareCycle n m = false := by
  refine Bool.eq_false_iff.2 fun hshare => ?_
  obtain ⟨id, hn, -⟩ := shareCycle_iff_exists.1 hshare
  have hcyclic : g.isCyclic n = true := isCyclic_iff_exists.2 ⟨id, hn⟩
  rw [h] at hcyclic
  exact Bool.noConfusion hcyclic

namespace Solver

theorem cycleClosed_apply (g : SentenceGraph) (n : String) (a : Assignment) (m : String) :
    cycleClosed g n a m =
      if g.shareCycle n m = true ∧ a.valueOf m = .neither then .falsum else a.valueOf m := by
  unfold cycleClosed Assignment.closed
  by_cases hshare : g.shareCycle n m = true
  · rw [if_pos hshare]
    cases a.valueOf m <;> simp [hshare]
  · rw [if_neg hshare, if_neg fun h => hshare h.1]

theorem valueOf_le_reading (s : Solver) (g : SentenceGraph) (n : String) (a : Assignment) :
    a.valueOf ≤ s.reading g n a := by
  intro m
  unfold reading
  cases s.config.grounding with
  | closedWorld =>
    show a.valueOf m ≤ if g.shareCycle n m then a.closed m else a.valueOf m
    split
    · exact a.valueOf_le_closed m
    · exact le_rfl
  | openWorld => exact le_rfl

/-- Off every cycle a sentence reads exactly, whatever the grounding. -/
theorem reading_of_not_isCyclic (s : Solver) {g : SentenceGraph} {n : String}
    (h : g.isCyclic n = false) (a : Assignment) : s.reading g n a = a.valueOf := by
  unfold reading
  cases s.config.grounding with
  | closedWorld =>
    funext m
    have hshare := SentenceGraph.shareCycle_of_not_isCyclic h m
    show cycleClosed g n a m = a.valueOf m
    rw [cycleClosed, if_neg (by simp [hshare])]
  | openWorld => rfl

/-- A fixed assignment is closed under its formulas even where its sentences read more than there
is: what they read exactly is less. -/
theorem closed_of_fixed {s : Solver} {g : SentenceGraph} (hmono : s.connectives.Monotone)
    {a : Assignment} (h : (s.step g a).next = a) : g.Closed s.connectives a.valueOf := by
  intro n f hf
  have hexact : f.eval s.connectives a.valueOf ≤ f.eval s.connectives (s.reading g n a) :=
    Formula.eval_mono hmono (s.valueOf_le_reading g n a) f
  exact le_trans hexact (s.eval_reading_le_of_step_eq h hf)

/-- Rounds of exact reading stay below what is fixed under any grounding. -/
theorem afterRounds_le_of_fixed {s t : Solver} {g : SentenceGraph}
    (hopen : s.config.grounding = .openWorld) (hmono : s.connectives.Monotone)
    (hconn : s.connectives = t.connectives) {a : Assignment} (h : (t.step g a).next = a) (k : Nat) :
    (s.afterRounds g g.bottom k).valueOf ≤ a.valueOf := by
  have hclosed : g.Closed s.connectives a.valueOf := hconn ▸ closed_of_fixed (hconn ▸ hmono) h
  exact afterRounds_le_of_closed hopen hmono hclosed (g.bottom_le _) k

/-- Off every cycle a stable run has given a sentence exactly what its formula says. -/
theorem valueOf_stable_of_not_isCyclic {s : Solver} {g : SentenceGraph}
    (hmono : s.connectives.Monotone) {R : Nat} (hR : R ∈ s.stableAfter g g.bottom) {n : String}
    {f : Formula} (hf : g.formula? n = some f) (hn : g.isCyclic n = false) :
    (s.afterRounds g g.bottom R).valueOf n =
      f.eval s.connectives (s.afterRounds g g.bottom R).valueOf :=
  le_antisymm (le_eval_afterRounds hf (s.reading_of_not_isCyclic hn) hmono R)
    (closed_of_fixed hmono (s.step_of_mem_stableAfter hR) n f hf)

/-- Under monotone connectives the closed-world solution holds the solution of exact reading.  It
agrees with the formula of every sentence off the cycles, and on a cycle it holds what the formula
says both exactly and where members of the cycle without evidence are read as false. -/
theorem solve_closedWorld_dominates (c : SolverConfig) (ops : Connectives)
    (hops : ops.violations = []) (g : SentenceGraph) :
    let s : Solver := ⟨{ c with grounding := .closedWorld, maxIterations := none }, ops⟩
    let t : Solver := ⟨{ c with grounding := .openWorld, maxIterations := none }, ops⟩
    ∃ sol least, s.solve g = .ok sol ∧ t.solve g = .ok least ∧
      sol.assignment.names = g.names ∧ least.assignment.names = g.names ∧
      (∀ n, least.assignment.valueOf n ≤ sol.assignment.valueOf n) ∧
      ∀ n f, g.formula? n = some f →
        (g.isCyclic n = false →
          sol.assignment.valueOf n = f.eval ops sol.assignment.valueOf) ∧
        (g.isCyclic n = true →
          f.eval ops sol.assignment.valueOf ≤ sol.assignment.valueOf n ∧
          f.eval ops (fun m =>
            if g.shareCycle n m = true ∧ sol.assignment.valueOf m = .neither then .falsum
            else sol.assignment.valueOf m) ≤ sol.assignment.valueOf n) := by
  intro s t
  have hmono : ops.Monotone := ops.violations_eq_nil_iff.1 hops
  have hverify (u : Solver) (hu : u.connectives = ops) : u.verify = .ok () := by
    unfold verify
    rw [hu, hops]
    split <;> rfl
  obtain ⟨R, sol, hR, hsol, hassign⟩ := exists_solution (hverify s rfl) rfl g
  obtain ⟨L, least, -, hleast, hassignLeast⟩ := exists_solution (hverify t rfl) rfl g
  have hfixed : (s.step g sol.assignment).next = sol.assignment := by
    rw [hassign]
    exact s.step_of_mem_stableAfter hR.1
  have hclosed : g.Closed ops sol.assignment.valueOf := closed_of_fixed (s := s) hmono hfixed
  refine ⟨sol, least, hsol, hleast, ?_, ?_, ?_, fun n f hf => ⟨fun hn => ?_, fun _ => ⟨?_, ?_⟩⟩⟩
  · rw [hassign, s.names_afterRounds g.names_bottom]
  · rw [hassignLeast, t.names_afterRounds g.names_bottom]
  · -- the least assignment stays below whatever is closed under the formulas
    rw [hassignLeast]
    exact afterRounds_le_of_closed (s := t) rfl hmono hclosed (g.bottom_le _) L
  · have hle : sol.assignment.valueOf n ≤ f.eval ops sol.assignment.valueOf := by
      rw [hassign]
      exact le_eval_afterRounds (s := s) hf (s.reading_of_not_isCyclic hn) hmono R
    exact le_antisymm hle (hclosed n f hf)
  · exact hclosed n f hf
  · have hread := s.eval_reading_le_of_step_eq hfixed hf
    have hview : s.reading g n sol.assignment = fun m =>
        if g.shareCycle n m = true ∧ sol.assignment.valueOf m = .neither then .falsum
        else sol.assignment.valueOf m := funext fun m => cycleClosed_apply g n _ m
    rw [hview] at hread
    exact hread

/-- A sentence off the cycles that reads one that denies itself and one that affirms itself. -/
theorem solve_closedWorld_dominates_tail :
    ∃ g, SentenceGraph.ofDefinitions [("liar", .neg (.ref "liar")), ("sure", .ref "sure"),
        ("tail", .conj (.ref "liar") (.ref "sure"))] = .ok g ∧
      Connectives.belnap.violations = [] ∧
      g.isCyclic "tail" = false ∧ g.isCyclic "sure" = true ∧
      ∃ sol least, (⟨{ grounding := .closedWorld }, .belnap⟩ : Solver).solve g = .ok sol ∧
        (⟨{ grounding := .openWorld }, .belnap⟩ : Solver).solve g = .ok least ∧
        (∀ n, least.assignment.valueOf n ≤ sol.assignment.valueOf n) ∧
        sol.assignment.valueOf "tail" = Connectives.belnap.conj (sol.assignment.valueOf "liar")
          (sol.assignment.valueOf "sure") ∧
        sol.assignment.valueOf "sure" ≠ .neither := by
  obtain ⟨g, hg⟩ : ∃ g, SentenceGraph.ofDefinitions [("liar", .neg (.ref "liar")),
      ("sure", .ref "sure"), ("tail", .conj (.ref "liar") (.ref "sure"))] = .ok g :=
    SentenceGraph.exists_ofDefinitions (by decide +kernel) (by decide +kernel)
  have hops : Connectives.belnap.violations = [] := by decide +kernel
  have hrefers := SentenceGraph.refers_eq_refersIn hg
  have htail : g.isCyclic "tail" = false := by
    refine Bool.eq_false_iff.2 fun h => ?_
    obtain ⟨a, -, ha⟩ := Relation.TransGen.tail'_iff.1 (SentenceGraph.isCyclic_iff.1 h)
    rw [hrefers] at ha
    obtain ⟨f, hf, hmem⟩ := ha
    simp only [List.mem_cons, List.not_mem_nil, or_false, Prod.mk.injEq] at hf
    rcases hf with ⟨-, rfl⟩ | ⟨-, rfl⟩ | ⟨-, rfl⟩ <;> simp [Formula.occurrences] at hmem
  have hsure : g.isCyclic "sure" = true := by
    refine SentenceGraph.isCyclic_iff.2 (.single ?_)
    rw [hrefers]
    exact ⟨.ref "sure", by simp, by simp [Formula.occurrences]⟩
  obtain ⟨sol, least, hsol, hleast, -, -, hle, hvalue⟩ :=
    solve_closedWorld_dominates {} .belnap hops g
  refine ⟨g, hg, hops, htail, hsure, sol, least, hsol, hleast, hle, ?_, fun hnone => ?_⟩
  · have hformula : g.formula? "tail" = some (.conj (.ref "liar") (.ref "sure")) :=
      (SentenceGraph.formula?_eq_some_iff hg).2 (by simp)
    exact (hvalue "tail" _ hformula).1 htail
  · have hformula : g.formula? "sure" = some (.ref "sure") :=
      (SentenceGraph.formula?_eq_some_iff hg).2 (by simp)
    have hview := ((hvalue "sure" _ hformula).2 hsure).2
    have hshare : g.shareCycle "sure" "sure" = true := SentenceGraph.isCyclic_iff_shareCycle.1 hsure
    simp only [Formula.eval, hshare, hnone, and_self, if_true] at hview
    exact absurd hview (by decide)

end Solver

end SelfReference
