import SelfReference.Proofs.DefinitionOrder
import SelfReference.Proofs.Embeddings
import SelfReference.Proofs.Renaming

/-!
# Solving under other names

A graph under other names holds the renamed sentences and no others.  Its cycles are the renamed
cycles, its rounds make the renamed assignments, and solving it gives the renamed outcome, although
the new names may stand in another order.
-/

namespace SelfReference

namespace SentenceGraph

/-- The second graph holds the sentences of the first one under other names, and no others. -/
structure RenamedVia (r : String → String) (g h : SentenceGraph) : Prop extends EmbedsVia r g h where
  covers : ∀ m ∈ h.names, ∃ n ∈ g.names, r n = m

namespace RenamedVia

variable {r : String → String} {g h : SentenceGraph} (e : RenamedVia r g h)
include e

theorem size_eq : h.size = g.size := by
  have hnodup : (g.names.map r).Nodup := List.Nodup.map_on
    (fun a ha b hb hab => e.injOn ha hb hab) g.sentences.names_nodup
  have hperm : h.names.Perm (g.names.map r) := by
    refine (List.perm_ext_iff_of_nodup h.sentences.names_nodup hnodup).2 fun m => ?_
    rw [List.mem_map]
    constructor
    · exact e.covers m
    · rintro ⟨n, hn, rfl⟩
      exact e.mem_names hn
  have hlength := hperm.length_eq
  rw [List.length_map, h.length_names, g.length_names] at hlength
  exact hlength

/-! ### Cycles -/

theorem shareCycle_iff_exists {a m : String} (ha : a ∈ g.names) :
    h.shareCycle (r a) m = true ↔ ∃ b, g.shareCycle a b = true ∧ r b = m := by
  constructor
  · intro hshare
    obtain ⟨b, hb, rfl⟩ := e.covers m (h.mem_names_of_dependsOn (shareCycle_iff.1 hshare).1).2
    exact ⟨b, (e.shareCycle_eq ha hb).symm.trans hshare, rfl⟩
  · rintro ⟨b, hshare, rfl⟩
    have hb : b ∈ g.names := (g.mem_names_of_dependsOn (shareCycle_iff.1 hshare).1).2
    exact (e.shareCycle_eq ha hb).trans hshare

theorem mem_cycles_iff_perm {c : List String} :
    c ∈ h.cycles ↔ c.Pairwise (· < ·) ∧ ∃ d ∈ g.cycles, c.Perm (d.map r) := by
  -- a cycle in either graph is what shares one with any of its members
  have hperm {a : String} {d : List String} (hd : d ∈ g.cycles) (ha : a ∈ d)
      (hc : c.Pairwise (· < ·)) :
      c.Perm (d.map r) ↔ ∀ m, m ∈ c ↔ h.shareCycle (r a) m = true := by
    have hshare := (mem_cycle_iff hd ha).1 ha
    have hag : a ∈ g.names := (g.mem_names_of_dependsOn (shareCycle_iff.1 hshare).1).1
    have hdg (b : String) (hb : b ∈ d) : b ∈ g.names :=
      (g.mem_names_of_dependsOn (shareCycle_iff.1 ((mem_cycle_iff hd ha).1 hb)).1).2
    have hnodup : (d.map r).Nodup := List.Nodup.map_on
      (fun x hx y hy hxy => e.injOn (hdg x hx) (hdg y hy) hxy)
      (NameMap.nodup_of_ascending (cycle_ascending hd))
    rw [List.perm_ext_iff_of_nodup (NameMap.nodup_of_ascending hc) hnodup]
    refine forall_congr' fun m => ?_
    rw [e.shareCycle_iff_exists hag, List.mem_map]
    simp only [mem_cycle_iff hd ha]
  rw [mem_cycles_iff]
  refine and_congr_right fun hc => ⟨?_, ?_⟩
  · rintro ⟨m, hm, hmem⟩
    obtain ⟨a, hag, rfl⟩ := e.covers m (h.mem_names_of_dependsOn (isCyclic_iff.1 hm)).1
    rw [e.isCyclic_eq hag] at hm
    obtain ⟨d, hd, had⟩ := exists_cycle hm
    exact ⟨d, hd, (hperm hd had hc).2 hmem⟩
  · rintro ⟨d, hd, hcd⟩
    obtain ⟨a, had⟩ := exists_mem_cycle hd
    have hcyclic : g.isCyclic a = true := isCyclic_iff_shareCycle.2 ((mem_cycle_iff hd had).1 had)
    have hag : a ∈ g.names := (g.mem_names_of_dependsOn (isCyclic_iff.1 hcyclic)).1
    exact ⟨r a, (e.isCyclic_eq hag).trans hcyclic, (hperm hd had hc).1 hcd⟩

/-! ### Rounds -/

variable (s : Solver)

theorem afterRounds_eq (k : Nat) :
    s.afterRounds h h.bottom k = (s.afterRounds g g.bottom k).rename r := by
  have hnames : (s.afterRounds g g.bottom k).names = g.names := s.names_afterRounds g.names_bottom k
  refine NameMap.eq_rename e.injOn (fun n hn => hnames ▸ hn)
    (fun n hn => e.get?_afterRounds s k hn) fun m hm => e.covers m ?_
  rw [s.names_afterRounds h.names_bottom] at hm
  exact hm

theorem changesAfter_eq (k : Nat) :
    Run.changesAfter s h k = (Run.changesAfter s g k).rename r :=
  NameMap.eq_rename e.injOn (fun _ hn => Run.mem_names_of_changesAfter s g hn)
    (fun _ hn => e.get?_changesAfter s k hn)
    fun m hm => e.covers m (Run.mem_names_of_changesAfter s h hm)

theorem stableAfter_eq : s.stableAfter h h.bottom = s.stableAfter g g.bottom := by
  refine Set.ext fun R => ⟨e.mem_stableAfter s, fun hR => ⟨hR.1, ?_⟩⟩
  rw [e.afterRounds_eq s R, e.afterRounds_eq s (R - 1), hR.2]

theorem isFixed_eq (k : Nat) :
    (s.step h (Run.after s h k).current).isFixed = (s.step g (Run.after s g k).current).isFixed := by
  rw [Bool.eq_iff_iff, Run.isFixed_after_iff, Run.isFixed_after_iff, e.stableAfter_eq s]

theorem current_after_eq (k : Nat) :
    (Run.after s h k).current = (Run.after s g k).current.rename r := by
  rw [Run.current_after, Run.current_after, e.afterRounds_eq s k]

theorem trace_after_eq (k : Nat) :
    (Run.after s h k).trace = (Run.after s g k).trace.map (NameMap.rename r) := by
  induction k with
  | zero =>
    show (if s.config.recordTrace then [h.bottom] else []) =
      (if s.config.recordTrace then [g.bottom] else []).map (NameMap.rename r)
    split
    · exact congrArg (fun a => [a]) (e.current_after_eq s 0)
    · rfl
  | succ k ih =>
    have hnext : (s.step h (Run.after s h k).current).next =
        (s.step g (Run.after s g k).current).next.rename r := by
      have hcurrent := e.current_after_eq s (k + 1)
      rw [Run.after_succ, Run.after_succ, Run.current_apply, Run.current_apply] at hcurrent
      exact hcurrent
    rw [Run.after_succ, Run.after_succ, Run.trace_apply, Run.trace_apply, e.isFixed_eq s k, ih, hnext]
    split
    · rw [List.map_append]
      rfl
    · rfl

theorem metrics_after_eq (k : Nat) :
    (Run.after s h k).metrics = (Run.after s g k).metrics.rename r := by
  induction k with
  | zero => rfl
  | succ k ih =>
    rw [Run.metrics_after_succ, Run.metrics_after_succ, ih, e.isFixed_eq s k,
      e.changesAfter_eq s (k + 1)]
    rfl

/-! ### Outcomes -/

theorem solution_after_eq (k : Nat) :
    (Run.after s h k).solution = (Run.after s g k).solution.rename r := by
  have hnames : ∀ n ∈ (Run.after s g k).current.names, n ∈ {n | n ∈ g.names} := by
    rw [Run.current_after, s.names_afterRounds g.names_bottom]
    exact fun _ hn => hn
  have hfinal := Metrics.recordFinal_rename e.injOn hnames (Run.after s g k).metrics
  show Solution.mk (Run.after s h k).current .stable (Run.after s h k).trace
    ((Run.after s h k).metrics.recordFinal (Run.after s h k).current) = _
  rw [e.current_after_eq s k, e.trace_after_eq s k, e.metrics_after_eq s k, hfinal]
  rfl

theorem finish_eq :
    (Run.start s h).finish s h = renameOutcome r ((Run.start s g).finish s g) := by
  have hbound : Run.bound s h = Run.bound s g := by
    rw [Run.bound, Run.bound, e.size_eq]
  by_cases hsize : g.size = 0
  · rw [Run.finish_start_of_size_eq_zero s g hsize,
      Run.finish_start_of_size_eq_zero s h (e.size_eq.trans hsize)]
    exact congrArg Except.ok (e.solution_after_eq s 0)
  have hsize' : h.size ≠ 0 := fun hzero => hsize (e.size_eq.symm.trans hzero)
  obtain ⟨R, hR, -⟩ := s.exists_isLeast_stableAfter g.names_bottom
  have hR' : IsLeast (s.stableAfter h h.bottom) R := by
    rw [e.stableAfter_eq s]
    exact hR
  by_cases hle : R ≤ Run.bound s g
  · rw [Run.finish_start_of_le hR hsize hle, Run.finish_start_of_le hR' hsize' (hbound ▸ hle)]
    exact congrArg Except.ok (e.solution_after_eq s R)
  · have hlt : Run.bound s g < R := by omega
    rw [Run.finish_start_of_lt hR hsize hlt, Run.finish_start_of_lt hR' hsize' (hbound ▸ hlt),
      hbound, e.afterRounds_eq s]
    rfl

/-- Solving the renamed graph gives the renamed outcome. -/
theorem solve_eq : s.solve h = renameOutcome r (s.solve g) := by
  cases hverify : s.verify with
  | ok _ => rw [Solver.solve_of_verify hverify, Solver.solve_of_verify hverify, e.finish_eq s]
  | error err =>
    -- the error names no sentence
    obtain ⟨d, rfl⟩ := Solver.exists_nonMonotone_of_verify hverify
    rw [Solver.solve_of_verify_error hverify, Solver.solve_of_verify_error hverify]
    rfl

end RenamedVia

/-! ### Renamed definitions -/

section Definitions

variable {ds : List (String × Formula)} {g : SentenceGraph} {r : String → String}

/-- The definitions under other names, in the same order. -/
def renameDefinitions (r : String → String) (ds : List (String × Formula)) :
    List (String × Formula) :=
  ds.map fun d => (r d.1, d.2.rename r)

theorem map_fst_renameDefinitions :
    (renameDefinitions r ds).map (·.1) = (ds.map (·.1)).map r := by
  rw [renameDefinitions, List.map_map, List.map_map]
  rfl

theorem exists_ofDefinitions_renameDefinitions (hg : ofDefinitions ds = .ok g)
    (hr : Set.InjOn r {n | n ∈ g.names}) (hblank : ∀ n ∈ g.names, Text.isBlank (r n) = false) :
    ∃ h, ofDefinitions (renameDefinitions r ds) = .ok h := by
  obtain ⟨-, hnodup, hresolved⟩ := exists_ofDefinitions_iff.1 ⟨g, hg⟩
  have hnames (n : String) (hn : n ∈ ds.map (·.1)) : n ∈ g.names :=
    (mem_names_ofDefinitions hg).2 hn
  rw [exists_ofDefinitions_iff, map_fst_renameDefinitions]
  refine ⟨fun d' hd' => ?_, ?_, fun d' hd' m hm => ?_⟩
  · obtain ⟨d, hd, rfl⟩ := List.mem_map.1 hd'
    exact hblank d.1 (hnames d.1 (List.mem_map_of_mem hd))
  · exact hnodup.map_on fun a ha b hb hab => hr (hnames a ha) (hnames b hb) hab
  · obtain ⟨d, hd, rfl⟩ := List.mem_map.1 hd'
    rw [Formula.occurrences_rename] at hm
    obtain ⟨n, hn, rfl⟩ := List.mem_map.1 hm
    exact List.mem_map_of_mem (hresolved d hd n hn)

theorem renamedVia_of_ofDefinitions (hg : ofDefinitions ds = .ok g)
    (hr : Set.InjOn r {n | n ∈ g.names}) {h : SentenceGraph}
    (hh : ofDefinitions (renameDefinitions r ds) = .ok h) : RenamedVia r g h where
  injOn := hr
  formula? n f hf := by
    have hmem := (formula?_eq_some_iff hg).1 hf
    exact (formula?_eq_some_iff hh).2 (List.mem_map.2 ⟨(n, f), hmem, rfl⟩)
  covers m hm := by
    rw [mem_names_ofDefinitions hh, map_fst_renameDefinitions] at hm
    obtain ⟨n, hn, rfl⟩ := List.mem_map.1 hm
    exact ⟨n, (mem_names_ofDefinitions hg).2 hn, rfl⟩

end Definitions

/-- Neither the order of definitions nor their names matter.  Reordered definitions make the same
graph, or have a fault of the same kind, and the same one where it lies in a reference.  Definitions
whose names are exchanged for other ones are accepted, their cycles are the renamed cycles, and
solving them under any configuration and connectives gives the renamed outcome. -/
theorem order_and_names_irrelevant (ds : List (String × Formula)) :
    (∀ ds', ds.Perm ds' →
      (∀ g, ofDefinitions ds = .ok g → ofDefinitions ds' = .ok g) ∧
      ∀ e, ofDefinitions ds = .error e →
        (e.IsNameFault ∧ ∃ e', ofDefinitions ds' = .error e' ∧ e'.IsNameFault) ∨
        (e.IsReferenceFault ∧ ofDefinitions ds' = .error e)) ∧
    ∀ g, ofDefinitions ds = .ok g → ∀ r : String → String, Set.InjOn r {n | n ∈ g.names} →
      (∀ n ∈ g.names, Text.isBlank (r n) = false) →
      ∃ h, ofDefinitions (renameDefinitions r ds) = .ok h ∧
        (∀ c, c ∈ h.cycles ↔ c.Pairwise (· < ·) ∧ ∃ d ∈ g.cycles, c.Perm (d.map r)) ∧
        ∀ s : Solver, s.solve h = renameOutcome r (s.solve g) := by
  refine ⟨fun ds' hperm => ⟨fun g hg => ofDefinitions_of_perm hperm hg,
    fun e he => ofDefinitions_error_of_perm hperm he⟩, fun g hg r hr hblank => ?_⟩
  obtain ⟨h, hh⟩ := exists_ofDefinitions_renameDefinitions hg hr hblank
  have hrenamed := renamedVia_of_ofDefinitions hg hr hh
  exact ⟨h, hh, fun c => hrenamed.mem_cycles_iff_perm, hrenamed.solve_eq⟩

/-- Two sentences on a cycle, defined in the other order, and under names that stand in the other
order. -/
theorem order_and_names_irrelevant_swap :
    let r : String → String := fun n => if n = "a" then "y" else "x"
    ∃ g h, ofDefinitions [("a", .neg (.ref "b")), ("b", .ref "a")] = .ok g ∧
      Set.InjOn r {n | n ∈ g.names} ∧ (∀ n ∈ g.names, Text.isBlank (r n) = false) ∧
      ofDefinitions [("b", .ref "a"), ("a", .neg (.ref "b"))] = .ok g ∧
      ofDefinitions [("y", .neg (.ref "x")), ("x", .ref "y")] = .ok h ∧
      (⟨{}, .belnap⟩ : Solver).solve h = renameOutcome r ((⟨{}, .belnap⟩ : Solver).solve g) := by
  intro r
  obtain ⟨g, hg⟩ : ∃ g, ofDefinitions [("a", .neg (.ref "b")), ("b", .ref "a")] = .ok g :=
    exists_ofDefinitions (by decide +kernel) (by decide +kernel)
  have hnames (n : String) (hn : n ∈ g.names) : n = "a" ∨ n = "b" := by
    rw [mem_names_ofDefinitions hg] at hn
    simpa using hn
  have hr : Set.InjOn r {n | n ∈ g.names} := by
    intro m hm n hn hmn
    rcases hnames m hm with rfl | rfl <;> rcases hnames n hn with rfl | rfl <;> simp_all [r]
  have hblank : ∀ n ∈ g.names, Text.isBlank (r n) = false := by
    intro n hn
    rcases hnames n hn with rfl | rfl <;> decide +kernel
  obtain ⟨horder, hrename⟩ :=
    order_and_names_irrelevant [("a", .neg (.ref "b")), ("b", .ref "a")]
  obtain ⟨h, hh, -, hsolve⟩ := hrename g hg r hr hblank
  exact ⟨g, h, hg, hr, hblank, (horder _ (List.Perm.swap ..)).1 g hg, hh, hsolve _⟩

end SentenceGraph

end SelfReference
