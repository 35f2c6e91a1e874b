import Mathlib.Data.Finset.Dedup
import Mathlib.Data.Finset.Filter
import Mathlib.Data.Finset.Insert
import SelfReference.Proofs.Embeddings

/-!
# Locality

The sentences of a set closed under dependencies can be solved on their own.  What nobody among them
depends on has no part in their cycles, in their values after any round, or in how often they
change; it can only make the run longer.
-/

namespace SelfReference.SentenceGraph

variable {ds : List (String × Formula)} {g : SentenceGraph} {S : Finset String}

/-- The definitions of the names in a set. -/
def definitionsOf (S : Finset String) (ds : List (String × Formula)) : List (String × Formula) :=
  ds.filter fun d => d.1 ∈ S

theorem mem_definitionsOf {d : String × Formula} : d ∈ definitionsOf S ds ↔ d ∈ ds ∧ d.1 ∈ S := by
  rw [definitionsOf, List.mem_filter, decide_eq_true_eq]

theorem exists_ofDefinitions_definitionsOf (hg : ofDefinitions ds = .ok g)
    (hclosed : ∀ a ∈ S, ∀ b, RefersIn ds a b → b ∈ S) :
    ∃ h, ofDefinitions (definitionsOf S ds) = .ok h := by
  obtain ⟨hblank, hnodup, hresolved⟩ := exists_ofDefinitions_iff.1 ⟨g, hg⟩
  refine exists_ofDefinitions_iff.2 ⟨fun d hd => ?_, ?_, fun d hd r hr => ?_⟩
  · exact hblank d (mem_definitionsOf.1 hd).1
  · exact hnodup.sublist (List.filter_sublist.map _)
  · obtain ⟨hmem, hS⟩ := mem_definitionsOf.1 hd
    have hrS : r ∈ S := hclosed d.1 hS r ⟨d.2, hmem, hr⟩
    obtain ⟨d', hd', rfl⟩ := List.mem_map.1 (hresolved d hmem r hr)
    exact List.mem_map.2 ⟨d', mem_definitionsOf.2 ⟨hd', hrS⟩, rfl⟩

theorem mem_names_definitionsOf (hg : ofDefinitions ds = .ok g) (hS : ∀ n ∈ S, n ∈ g.names)
    {h : SentenceGraph} (hh : ofDefinitions (definitionsOf S ds) = .ok h) {n : String} :
    n ∈ h.names ↔ n ∈ S := by
  rw [mem_names_ofDefinitions hh, List.mem_map]
  constructor
  · rintro ⟨d, hd, rfl⟩
    exact (mem_definitionsOf.1 hd).2
  · intro hn
    obtain ⟨d, hd, rfl⟩ := List.mem_map.1 ((mem_names_ofDefinitions hg).1 (hS n hn))
    exact ⟨d, mem_definitionsOf.2 ⟨hd, hn⟩, rfl⟩

/-- The graph of some of the definitions lies inside the graph of all of them. -/
theorem embedsVia_id (hg : ofDefinitions ds = .ok g) {h : SentenceGraph}
    (hh : ofDefinitions (definitionsOf S ds) = .ok h) : EmbedsVia id h g where
  injOn := Function.injective_id.injOn
  formula? n f hf := by
    have hmem := (formula?_eq_some_iff hh).1 hf
    rw [f.rename_id]
    exact (formula?_eq_some_iff hg).2 (mem_definitionsOf.1 hmem).1

/-- Graphs that hold the same formula for every name that a name reaches give it the same values. -/
theorem valueOf_afterRounds_of_agree (s : Solver) {g g' : SentenceGraph} {n : String}
    (hn : n ∈ g.names) (hsame : ∀ r, Relation.ReflTransGen g.sentences.Refers n r →
      g'.formula? r = g.formula? r) (k : Nat) :
    (s.afterRounds g' g'.bottom k).valueOf n = (s.afterRounds g g.bottom k).valueOf n := by
  classical
  -- both graphs hold the graph of the reached names
  let S : Finset String :=
    {m ∈ g.names.toFinset | Relation.ReflTransGen g.sentences.Refers n m}
  have hS (m : String) : m ∈ S ↔ m ∈ g.names ∧ Relation.ReflTransGen g.sentences.Refers n m := by
    rw [Finset.mem_filter, List.mem_toFinset]
  have hg := ofDefinitions_entries g
  have hclosed : ∀ a ∈ S, ∀ b, RefersIn g.sentences.entries a b → b ∈ S := by
    intro a ha b hab
    rw [← refers_eq_refersIn hg] at hab
    exact (hS b).2 ⟨(g.mem_names_of_refers hab).2, ((hS a).1 ha).2.tail hab⟩
  obtain ⟨h, hh⟩ := exists_ofDefinitions_definitionsOf hg hclosed
  have hnames (m : String) : m ∈ h.names ↔ m ∈ S :=
    mem_names_definitionsOf hg (fun m hm => ((hS m).1 hm).1) hh
  have e : EmbedsVia id h g := embedsVia_id hg hh
  have e' : EmbedsVia id h g' := by
    refine ⟨Function.injective_id.injOn, fun m f hf => ?_⟩
    have hm : m ∈ S := (hnames m).1 (SentenceGraph.mem_names_iff.2 ⟨f, hf⟩)
    exact (hsame m ((hS m).1 hm).2).trans (e.formula? m f hf)
  have hnh : n ∈ h.names := (hnames n).2 ((hS n).2 ⟨hn, .refl⟩)
  exact (e'.valueOf_afterRounds s k hnh).trans (e.valueOf_afterRounds s k hnh).symm

/-- A set of names closed under dependencies makes a graph of its own, with the same cycles.  Its
sentences have the same values after every number of rounds, and in the end the same values and
change counts, after no more rounds than the whole graph takes. -/
theorem solve_definitionsOf (hg : ofDefinitions ds = .ok g) (hS : ∀ n ∈ S, n ∈ g.names)
    (hclosed : ∀ a ∈ S, ∀ b, RefersIn ds a b → b ∈ S) :
    ∃ h, ofDefinitions (definitionsOf S ds) = .ok h ∧
      (∀ n, n ∈ h.names ↔ n ∈ S) ∧
      (∀ a ∈ S, h.isCyclic a = g.isCyclic a ∧ ∀ b ∈ S, h.shareCycle a b = g.shareCycle a b) ∧
      ∀ (c : SolverConfig) (ops : Connectives),
        let s : Solver := ⟨{ c with maxIterations := none }, ops⟩
        (∀ k, ∀ n ∈ S,
          (s.afterRounds h h.bottom k).get? n = (s.afterRounds g g.bottom k).get? n) ∧
        ((∃ e, s.verify = .error e ∧ s.solve g = .error e ∧ s.solve h = .error e) ∨
          (s.verify = .ok () ∧ ∃ whole part, s.solve g = .ok whole ∧ s.solve h = .ok part ∧
            part.rounds ≤ whole.rounds ∧
            ∀ n ∈ S, part.assignment.get? n = whole.assignment.get? n ∧
              part.metrics.changes.get? n = whole.metrics.changes.get? n)) := by
  obtain ⟨h, hh⟩ := exists_ofDefinitions_definitionsOf hg hclosed
  have hnames (n : String) : n ∈ h.names ↔ n ∈ S := mem_names_definitionsOf hg hS hh
  have e : EmbedsVia id h g := embedsVia_id hg hh
  refine ⟨h, hh, hnames, fun a ha => ⟨?_, fun b hb => ?_⟩, fun c ops => ⟨fun k n hn => ?_, ?_⟩⟩
  · exact (e.isCyclic_eq ((hnames a).2 ha)).symm
  · exact (e.shareCycle_eq ((hnames a).2 ha) ((hnames b).2 hb)).symm
  · exact (e.get?_afterRounds _ k ((hnames n).2 hn)).symm
  · cases hverify : Solver.verify ⟨{ c with maxIterations := none }, ops⟩ with
    | error err =>
      exact Or.inl ⟨err, rfl, Solver.solve_of_verify_error hverify g,
        Solver.solve_of_verify_error hverify h⟩
    | ok _ =>
      obtain ⟨whole, part, hwhole, hpart, hrounds, hsame⟩ := e.exists_solutions hverify rfl
      refine Or.inr ⟨rfl, whole, part, hwhole, hpart, hrounds, fun n hn => ?_⟩
      obtain ⟨hvalue, hcount⟩ := hsame n ((hnames n).2 hn)
      exact ⟨hvalue.symm, hcount.symm⟩

/-- The sentence that denies itself and a fact it does not use, beside a sentence that reads both it
and itself. -/
theorem solve_definitionsOf_liar :
    let ds : List (String × Formula) := [("liar", .neg (.ref "liar")), ("fact", .lit .verum),
      ("outer", .conj (.ref "liar") (.ref "outer"))]
    let S : Finset String := {"liar", "fact"}
    ∃ g h, ofDefinitions ds = .ok g ∧ (∀ n ∈ S, n ∈ g.names) ∧
      (∀ a ∈ S, ∀ b, RefersIn ds a b → b ∈ S) ∧
      ofDefinitions [("liar", .neg (.ref "liar")), ("fact", .lit .verum)] = .ok h ∧
      h.isCyclic "liar" = g.isCyclic "liar" ∧
      ∃ whole part, (⟨{}, .belnap⟩ : Solver).solve g = .ok whole ∧
        (⟨{}, .belnap⟩ : Solver).solve h = .ok part ∧ part.rounds ≤ whole.rounds ∧
        part.assignment.get? "liar" = whole.assignment.get? "liar" := by
  intro ds S
  obtain ⟨g, hg⟩ : ∃ g, ofDefinitions ds = .ok g :=
    exists_ofDefinitions (by decide +kernel) (by decide +kernel)
  have hS : ∀ n ∈ S, n ∈ g.names := by
    intro n hn
    rw [mem_names_ofDefinitions hg]
    simp only [S, Finset.mem_insert, Finset.mem_singleton] at hn
    rcases hn with rfl | rfl <;> simp [ds]
  have hclosed : ∀ a ∈ S, ∀ b, RefersIn ds a b → b ∈ S := by
    rintro a ha b ⟨f, hf, hb⟩
    simp only [S, Finset.mem_insert, Finset.mem_singleton] at ha
    simp only [ds, List.mem_cons, List.not_mem_nil, or_false, Prod.mk.injEq] at hf
    rcases ha with rfl | rfl <;> rcases hf with ⟨h, rfl⟩ | ⟨h, rfl⟩ | ⟨h, rfl⟩ <;>
      simp_all [Formula.occurrences, S]
  have hpart : definitionsOf S ds = [("liar", .neg (.ref "liar")), ("fact", .lit .verum)] := by
    decide +kernel
  obtain ⟨h, hh, -, hcycles, hsolve⟩ := solve_definitionsOf hg hS hclosed
  obtain ⟨-, ⟨_, hverify, -⟩ | ⟨-, whole, part, hw, hp, hrounds, hsame⟩⟩ := hsolve {} .belnap
  · cases hverify
  · have hliar : "liar" ∈ S := Finset.mem_insert_self ..
    rw [hpart] at hh
    exact ⟨g, h, hg, hS, hclosed, hh, (hcycles "liar" hliar).1, whole, part, hw, hp, hrounds,
      (hsame "liar" hliar).1⟩

end SelfReference.SentenceGraph
