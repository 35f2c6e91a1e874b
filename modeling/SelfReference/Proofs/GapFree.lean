import Mathlib.Order.WellFoundedSet
import SelfReference.Proofs.ClosedWorld
import SelfReference.Proofs.ReachedLiterals

/-!
# Closed worlds without gaps

Under closed-world grounding a sentence reads the gaps of its own cycle as false, so where a fixed
assignment leaves a gap, the gap was read from a sentence that does not lead back.  Sentences that
do not lead back cannot be followed forever.  With Belnap's tables, which make no gap of values
that are none, only a literal `neither` can therefore leave one.
-/

namespace SelfReference

namespace SentenceGraph

variable {g : SentenceGraph}

/-- One name depends on another that does not lead back to it. -/
def DependsBelow (g : SentenceGraph) (b a : String) : Prop := g.DependsOn a b ∧ ¬ g.DependsOn b a

instance (g : SentenceGraph) : IsStrictOrder String g.DependsBelow where
  irrefl _ h := h.2 h.1
  trans _ _ _ hab hbc :=
    ⟨hbc.1.trans hab.1, fun hca => hab.2 (hca.trans hbc.1)⟩

theorem dependsBelow_of_refers {a b : String} (h : g.sentences.Refers a b)
    (hshare : g.shareCycle a b = false) : g.DependsBelow b a := by
  refine ⟨.single h, fun hback => ?_⟩
  have hcommon : g.shareCycle a b = true := shareCycle_iff.2 ⟨.single h, hback⟩
  rw [hshare] at hcommon
  exact Bool.noConfusion hcommon

theorem dependsBelow_wellFoundedOn (g : SentenceGraph) :
    {n | n ∈ g.names}.WellFoundedOn g.DependsBelow :=
  g.names.finite_toSet.wellFoundedOn

/-- What holds of a sentence whenever it holds of all it refers to beyond its own cycle holds of
every sentence. -/
theorem induction_below {P : String → Prop}
    (step : ∀ n f, g.formula? n = some f →
      (∀ m, g.sentences.Refers n m → g.shareCycle n m = false → P m) → P n)
    {n : String} (hn : n ∈ g.names) : P n := by
  refine g.dependsBelow_wellFoundedOn.induction hn fun n hn ih => ?_
  obtain ⟨f, hf⟩ := mem_names_iff.1 hn
  refine step n f hf fun m hrefers hshare => ?_
  exact ih m (g.mem_names_of_refers hrefers).2 (dependsBelow_of_refers hrefers hshare)

end SentenceGraph

namespace Solver

section Fixed

variable {s : Solver} {g : SentenceGraph} (hclosed : s.config.grounding = .closedWorld)
  {a : Assignment} (hfixed : (s.step g a).next = a)
include hclosed

theorem reading_closed_eq_neither {n m : String} (h : s.reading g n a m = .neither) :
    g.shareCycle n m = false ∧ a.valueOf m = .neither := by
  have hview : s.reading g n a m = cycleClosed g n a m := by
    unfold reading
    rw [hclosed]
  rw [hview, cycleClosed_apply] at h
  split at h
  · cases h
  · rename_i hshare
    exact ⟨Bool.eq_false_iff.2 fun hs => hshare ⟨hs, h⟩, h⟩

include hfixed

theorem exists_gap_below (hkeeps : s.connectives.Keeps (· ≠ .neither)) {n : String} {f : Formula}
    (hf : g.formula? n = some f) (hlit : ∀ t ∈ f.literals, t ≠ .neither)
    (hgap : a.valueOf n = .neither) :
    ∃ m, g.sentences.Refers n m ∧ g.shareCycle n m = false ∧ a.valueOf m = .neither := by
  by_contra hnone
  have hread : ∀ m ∈ f.occurrences, s.reading g n a m ≠ .neither := by
    intro m hm hgap'
    exact hnone ⟨m, ⟨f, hf, hm⟩, reading_closed_eq_neither hclosed hgap'⟩
  have hvalue : f.eval s.connectives (s.reading g n a) ≠ .neither := f.eval_mem hkeeps hlit hread
  have hle := s.eval_reading_le_of_step_eq hfixed hf
  rw [hgap] at hle
  exact hvalue (le_antisymm hle (Truth.neither_le _))

theorem valueOf_ne_neither_of_confined (hkeeps : s.connectives.Keeps (· ≠ .neither)) {n : String}
    (hn : n ∈ g.names) (hconf : g.Confined (· ≠ .neither) n) : a.valueOf n ≠ .neither := by
  -- the induction is on what does not lead back, from the sentences that lead nowhere else upwards
  refine g.induction_below (P := fun n => g.Confined (· ≠ .neither) n → a.valueOf n ≠ .neither)
    (fun n f hf ih hconf hgap => ?_) hn hconf
  obtain ⟨m, hrefers, hshare, hm⟩ :=
    exists_gap_below hclosed hfixed hkeeps hf (hconf.literals hf) hgap
  exact ih m hrefers hshare (hconf.of_refers hrefers) hm

end Fixed

/-- With Belnap's connectives a closed-world solution gives a value to every sentence that reaches
no literal `neither`; without that literal there is no gap at all. -/
theorem solve_closedWorld_no_gaps (c : SolverConfig) (g : SentenceGraph) :
    let s : Solver := ⟨{ c with grounding := .closedWorld, maxIterations := none }, .belnap⟩
    ∃ sol, s.solve g = .ok sol ∧ sol.assignment.names = g.names ∧
      (∀ n ∈ g.names, g.Confined (· ≠ .neither) n → sol.assignment.valueOf n ≠ .neither) ∧
      ((∀ n f, g.formula? n = some f → .neither ∉ f.literals) →
        sol.assignment.count .neither = 0) := by
  intro s
  obtain ⟨R, sol, hR, hsol, hassign⟩ := exists_solution (verify_of_belnap (s := s) rfl) rfl g
  have hfixed : (s.step g sol.assignment).next = sol.assignment := by
    rw [hassign]
    exact s.step_of_mem_stableAfter hR.1
  have hnames : sol.assignment.names = g.names := by
    rw [hassign, s.names_afterRounds g.names_bottom]
  have hvalue (n : String) (hn : n ∈ g.names) (hconf : g.Confined (· ≠ .neither) n) :
      sol.assignment.valueOf n ≠ .neither :=
    valueOf_ne_neither_of_confined (s := s) rfl hfixed Connectives.belnap_keeps_ne_neither hn hconf
  refine ⟨sol, hsol, hnames, hvalue, fun hnone => ?_⟩
  refine List.count_eq_zero.2 fun hmem => ?_
  obtain ⟨⟨n, v⟩, he, rfl⟩ := List.mem_map.1 hmem
  have hget := sol.assignment.get?_eq_some_iff.2 he
  have hn : n ∈ g.names := hnames ▸ sol.assignment.mem_names_iff.2 ⟨_, hget⟩
  have hconf : g.Confined (· ≠ .neither) n := by
    rintro b f - hf t ht rfl
    exact hnone b f hf ht
  exact hvalue n hn hconf (Assignment.valueOf_eq_of_get? hget)

end Solver

end SelfReference
