import Mathlib.Data.List.Chain
import Mathlib.Data.List.Perm.Subperm
import Mathlib.Order.Lattice.Nat
import SelfReference.Proofs.RecursiveValues

/-!
# Runs without cycles

In a graph without cycles every sentence reads exactly, so both groundings make the same run,
whatever the connectives.  A sentence stands still once as many rounds have passed as there are
sentences on the longest path from it: all that it reads stood still before, and joining the same
evidence twice changes nothing.
-/

namespace SelfReference

namespace SentenceGraph

variable {g : SentenceGraph}

/-- The numbers of sentences on paths of references. -/
def pathLengths (g : SentenceGraph) : Set Nat :=
  {d | ∃ p : List String, p.IsChain g.sentences.Refers ∧ (∀ n ∈ p, n ∈ g.names) ∧ p.length = d}

theorem mem_names_of_isChain {n : String} {p : List String} (hn : n ∈ g.names)
    (hp : (n :: p).IsChain g.sentences.Refers) : ∀ m ∈ n :: p, m ∈ g.names := by
  induction p generalizing n with
  | nil =>
    intro m hm
    rw [List.mem_singleton.1 hm]
    exact hn
  | cons k p ih =>
    obtain ⟨hedge, htail⟩ := List.isChain_cons_cons.1 hp
    intro m hm
    rcases List.mem_cons.1 hm with rfl | hm
    · exact hn
    · exact ih (g.mem_names_of_refers hedge).2 htail m hm

variable (hacyclic : g.isAcyclic = true)
include hacyclic

theorem isCyclic_of_isAcyclic (n : String) : g.isCyclic n = false :=
  Bool.eq_false_iff.2 fun h => isAcyclic_iff.1 hacyclic n (isCyclic_iff.1 h)

theorem nodup_of_isChain {p : List String} (hp : p.IsChain g.sentences.Refers) : p.Nodup := by
  have hpaths : p.IsChain g.DependsOn := hp.imp fun _ _ hedge => .single hedge
  have : IsTrans String g.DependsOn := ⟨fun _ _ _ hab hbc => hab.trans hbc⟩
  refine hpaths.pairwise.imp fun hab heq => ?_
  subst heq
  exact isAcyclic_iff.1 hacyclic _ hab

theorem exists_isGreatest_pathLengths : ∃ D, IsGreatest g.pathLengths D := by
  have hbound : BddAbove g.pathLengths := by
    refine ⟨g.size, ?_⟩
    rintro d ⟨p, hp, hmem, rfl⟩
    rw [← g.length_names]
    exact ((nodup_of_isChain hacyclic hp).subperm hmem).length_le
  have hempty : 0 ∈ g.pathLengths := ⟨[], .nil, fun _ h => absurd h List.not_mem_nil, rfl⟩
  exact ⟨sSup g.pathLengths, Nat.sSup_mem ⟨0, hempty⟩ hbound, fun _ hd => le_csSup hbound hd⟩

end SentenceGraph

namespace Solver

variable {s : Solver} {g : SentenceGraph}

/-! ### Settling -/

/-- A sentence that reads the same again and again joins nothing after the first time. -/
theorem valueOf_afterRounds_of_reads {n : String} {f : Formula} (hf : g.formula? n = some f)
    (hexact : ∀ a, s.reading g n a = a.valueOf) {k : Nat}
    (hread : ∀ m ∈ f.occurrences, ∀ i, k ≤ i →
      (s.afterRounds g g.bottom i).valueOf m = (s.afterRounds g g.bottom k).valueOf m)
    {j : Nat} (hj : k + 1 ≤ j) :
    (s.afterRounds g g.bottom j).valueOf n = (s.afterRounds g g.bottom (k + 1)).valueOf n := by
  let x := s.afterRounds g g.bottom
  have hround (i : Nat) (hi : k ≤ i) :
      (x (i + 1)).valueOf n = ((x i).valueOf n).join (f.eval s.connectives (x k).valueOf) := by
    have heval : f.eval s.connectives (x i).valueOf = f.eval s.connectives (x k).valueOf :=
      f.eval_congr _ fun m hm => hread m hm i hi
    exact (valueOf_step_of_exact hf hexact (x i)).trans (by rw [heval])
  have hheld : f.eval s.connectives (x k).valueOf ≤ (x (k + 1)).valueOf n := by
    rw [hround k le_rfl]
    exact (Truth.join_le_iff.1 le_rfl).2
  induction j, hj using Nat.le_induction with
  | base => rfl
  | succ j hj ih =>
    show (x (j + 1)).valueOf n = (x (k + 1)).valueOf n
    rw [hround j (by omega), show (x j).valueOf n = (x (k + 1)).valueOf n from ih]
    exact Truth.join_eq_left_iff.2 hheld

variable (hacyclic : g.isAcyclic = true)
include hacyclic

/-- A sentence stands still after as many rounds as there are sentences on any path from it. -/
theorem valueOf_afterRounds_of_depth {k : Nat} {n : String} (hn : n ∈ g.names)
    (hdepth : ∀ p, (n :: p).IsChain g.sentences.Refers → (n :: p).length ≤ k) {j : Nat}
    (hj : k ≤ j) :
    (s.afterRounds g g.bottom j).valueOf n = (s.afterRounds g g.bottom k).valueOf n := by
  -- the induction is on the depth; what the sentence reads is less deep
  induction k generalizing n j with
  | zero => exact absurd (hdepth [] (.singleton n)) (by simp)
  | succ k ih =>
    obtain ⟨f, hf⟩ := SentenceGraph.mem_names_iff.1 hn
    have hexact := s.reading_of_not_isCyclic (SentenceGraph.isCyclic_of_isAcyclic hacyclic n)
    refine valueOf_afterRounds_of_reads hf hexact (fun m hm i hi => ?_) hj
    have hrefers : g.sentences.Refers n m := ⟨f, hf, hm⟩
    refine ih (g.mem_names_of_refers hrefers).2 (fun p hp => ?_) hi
    have hlonger := hdepth (m :: p) (.cons_cons hrefers hp)
    rw [List.length_cons] at hlonger
    omega

theorem mem_stableAfter_of_isAcyclic {D : Nat} (hD : IsGreatest g.pathLengths D) :
    D + 1 ∈ s.stableAfter g g.bottom := by
  refine ⟨by omega, ?_⟩
  refine s.afterRounds_ext g.names_bottom fun n hn => ?_
  refine valueOf_afterRounds_of_depth hacyclic hn (fun p hp => ?_) (Nat.le_succ D)
  exact hD.2 ⟨n :: p, hp, SentenceGraph.mem_names_of_isChain hn hp, rfl⟩

theorem step_eq_of_isAcyclic {t : Solver} (hconn : s.connectives = t.connectives)
    (a : Assignment) : s.step g a = t.step g a := by
  have hupdate : s.update g a = t.update g a := by
    funext n f
    have hoff := SentenceGraph.isCyclic_of_isAcyclic hacyclic n
    unfold update
    rw [s.reading_of_not_isCyclic hoff, t.reading_of_not_isCyclic hoff, hconn]
  unfold step
  rw [hupdate]

omit hacyclic

/-- With monotone connectives both groundings solve a sentence that reaches no cycle to the value
found by recursion, which with Belnap's connectives and settled literals is the Boolean one.  In a
graph without cycles both make the same run, with any connectives, in at most one round more than
there are sentences on a longest path. -/
theorem solve_grounded (g : SentenceGraph) :
    (∀ (c : SolverConfig) (ops : Connectives), ops.violations = [] →
      let s : Solver := ⟨{ c with maxIterations := none }, ops⟩
      ∃ sol, s.solve g = .ok sol ∧ sol.assignment.names = g.names ∧
        ∀ a ∈ g.names, g.Grounded a →
          (∀ t, g.Means (Formula.eval ops) a t ↔ t = sol.assignment.valueOf a) ∧
          (ops = .belnap → g.Confined Truth.IsSettled a →
            ∃ b, (∀ b', g.Means Formula.holds a b' ↔ b' = b) ∧
              sol.assignment.valueOf a = .ofBool b)) ∧
    (g.isAcyclic = true → ∃ D, IsGreatest g.pathLengths D ∧
      ∀ (c : SolverConfig) (ops : Connectives),
        let s (r : Grounding) : Solver := ⟨{ c with grounding := r }, ops⟩
        let run (r : Grounding) (k : Nat) : Run := (Run.advance (s r) g)^[k] (Run.start (s r) g)
        (∀ k, run .closedWorld k = run .openWorld k ∧
          (run .closedWorld k).metrics.rounds ≤ D + 1) ∧
        (s .closedWorld).solve g = (s .openWorld).solve g ∧
        (c.maxIterations = none → (s .closedWorld).verify = .ok () →
          ∃ sol, (s .closedWorld).solve g = .ok sol ∧ sol.rounds ≤ D + 1)) := by
  constructor
  · intro c ops hops s
    have hmono : ops.Monotone := ops.violations_eq_nil_iff.1 hops
    obtain ⟨R, sol, hR, hsol, hassign⟩ :=
      exists_solution (s := s) (verify_of_violations hops) rfl g
    refine ⟨sol, hsol, ?_, fun a ha hground => ⟨fun t => ?_, fun hbelnap hlit => ?_⟩⟩
    · rw [hassign, s.names_afterRounds g.names_bottom]
    · rw [hassign]
      exact means_stable_iff (s := s) hmono hR.1 ha hground t
    · rw [hassign]
      exact exists_means_holds_stable (s := s) hmono hR.1 ha hground hbelnap hlit
  · intro hacyclic
    obtain ⟨D, hD⟩ := SentenceGraph.exists_isGreatest_pathLengths hacyclic
    refine ⟨D, hD, fun c ops => ?_⟩
    intro s run
    have hstable : D + 1 ∈ (s .closedWorld).stableAfter g g.bottom :=
      mem_stableAfter_of_isAcyclic hacyclic hD
    have hsame : Run.SameRounds (s .closedWorld) g (s .openWorld) g :=
      ⟨step_eq_of_isAcyclic hacyclic rfl, rfl, rfl, rfl, rfl⟩
    refine ⟨fun k => ⟨hsame.iterate_advance_eq k, Run.rounds_iterate_advance_le hstable k⟩,
      hsame.solve_eq rfl, fun hbound hverify => ?_⟩
    obtain ⟨R, sol, hR, hsol, -, hrounds⟩ := exists_solution_rounds hverify hbound g
    have hle : R ≤ D + 1 := hR.2 hstable
    refine ⟨sol, hsol, ?_⟩
    rw [hrounds]
    split <;> omega

/-- A fact and its denial. -/
theorem solve_grounded_denial :
    let ds : List (String × Formula) := [("denial", .neg (.ref "fact")), ("fact", .lit .verum)]
    ∃ g sol b, SentenceGraph.ofDefinitions ds = .ok g ∧ g.isAcyclic = true ∧
      g.Grounded "denial" ∧ g.Confined Truth.IsSettled "denial" ∧
      (⟨{}, .belnap⟩ : Solver).solve g = .ok sol ∧
      g.Means Formula.holds "denial" b ∧ sol.assignment.valueOf "denial" = .ofBool b ∧
      ∃ D, IsGreatest g.pathLengths D ∧ sol.rounds ≤ D + 1 := by
  intro ds
  obtain ⟨g, hg⟩ : ∃ g, SentenceGraph.ofDefinitions ds = .ok g :=
    SentenceGraph.exists_ofDefinitions (by decide +kernel) (by decide +kernel)
  have hacyclic : g.isAcyclic = true := by
    rw [SentenceGraph.isAcyclic, g.marks_eq, (SentenceGraph.ofDefinitions_eq_ok_iff.1 hg).2.2]
    decide +kernel
  have hground : g.Grounded "denial" := fun b _ => SentenceGraph.isCyclic_of_isAcyclic hacyclic b
  have hlit : g.Confined Truth.IsSettled "denial" := by
    intro b f _ hf t ht
    have hmem := (SentenceGraph.formula?_eq_some_iff hg).1 hf
    simp only [ds, List.mem_cons, List.not_mem_nil, or_false, Prod.mk.injEq] at hmem
    rcases hmem with ⟨-, rfl⟩ | ⟨-, rfl⟩
    · exact absurd ht List.not_mem_nil
    · exact Or.inl (List.mem_singleton.1 ht)
  have hmem : "denial" ∈ g.names := (SentenceGraph.mem_names_ofDefinitions hg).2 (by simp [ds])
  obtain ⟨sol, hsol, -, hvalue⟩ :=
    (solve_grounded g).1 {} .belnap Connectives.belnap_violations
  obtain ⟨b, hmeans, hb⟩ := (hvalue "denial" hmem hground).2 rfl hlit
  obtain ⟨D, hD, hruns⟩ := (solve_grounded g).2 hacyclic
  obtain ⟨sol', hsol', hrounds⟩ := (hruns {} .belnap).2.2 rfl rfl
  obtain rfl : sol' = sol := Except.ok.inj (hsol'.symm.trans hsol)
  exact ⟨g, sol', b, hg, hacyclic, hground, hlit, hsol, (hmeans b).2 rfl, hb, D, hD, hrounds⟩

end Solver

end SelfReference
