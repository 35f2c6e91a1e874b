import Mathlib.Data.List.Range
import SelfReference.Proofs.Construction
import SelfReference.Proofs.Runs
import SelfReference.Proofs.Tallies

/-!
# The accounts of a run

A recorded trace holds the assignments of a run up to the one that did not change again, each with
more evidence than the one before.  The counters agree with it: the rounds, the changes of each
sentence, their total and the final counts can all be read off the trace.  Without a record only
the trace is lost.
-/

namespace SelfReference

/-- How often the value of a name differs between neighbours in a list of assignments. -/
def changesAlong (trace : List Assignment) (n : String) : Nat :=
  (trace.zip trace.tail).countP fun p => p.2.valueOf n ≠ p.1.valueOf n

theorem changesAlong_map_range (x : Nat → Assignment) (k : Nat) (n : String) :
    changesAlong ((List.range (k + 1)).map x) n =
      (List.range k).countP fun j => (x (j + 1)).valueOf n ≠ (x j).valueOf n := by
  have hpairs : ((List.range (k + 1)).map x).zip ((List.range (k + 1)).map x).tail =
      (List.range k).map fun j => (x j, x (j + 1)) := by
    refine List.ext_getElem (by simp) fun j _ _ => ?_
    simp [List.getElem_zip]
  rw [changesAlong, hpairs, List.countP_map]
  rfl

theorem eq_of_getElem?_map_range {x : Nat → Assignment} {m k : Nat} {a : Assignment}
    (h : ((List.range m).map x)[k]? = some a) : x k = a := by
  obtain ⟨hk, h⟩ := List.getElem?_eq_some_iff.1 h
  rw [List.getElem_map, List.getElem_range] at h
  exact h

namespace Solver

variable {s : Solver} {g : SentenceGraph} {R : Nat}

/-- Before the round that changes nothing no assignment comes twice. -/
theorem afterRounds_ne_of_lt (hR : IsLeast (s.stableAfter g g.bottom) R) {i j : Nat} (hij : i < j)
    (hj : j < R) : s.afterRounds g g.bottom i ≠ s.afterRounds g g.bottom j := by
  intro heq
  have hfixed : s.afterRounds g g.bottom (i + 1) = s.afterRounds g g.bottom i := by
    refine s.afterRounds_ext g.names_bottom fun n hn => ?_
    refine le_antisymm ?_ (s.afterRounds_le_afterRounds hn _ (Nat.le_succ i))
    rw [heq]
    exact s.afterRounds_le_afterRounds hn _ hij
  have hle : R ≤ i + 1 := hR.2 ⟨by omega, hfixed⟩
  omega

theorem afterRounds_leq {i j : Nat} (hij : i ≤ j) :
    (s.afterRounds g g.bottom i).leq (s.afterRounds g g.bottom j) = true := by
  refine Assignment.leq_iff.2 (Assignment.valueOf_le fun n hn => ?_)
  rw [s.names_afterRounds g.names_bottom] at hn
  exact s.afterRounds_le_afterRounds hn _ hij

/-- How many of the first rounds change the value of a name. -/
def changesWithin (s : Solver) (g : SentenceGraph) (n : String) (k : Nat) : Nat :=
  (List.range k).countP fun j =>
    (s.afterRounds g g.bottom (j + 1)).valueOf n ≠ (s.afterRounds g g.bottom j).valueOf n

theorem changesWithin_succ (s : Solver) (g : SentenceGraph) (n : String) (k : Nat) :
    changesWithin s g n (k + 1) = changesWithin s g n k +
      if (s.afterRounds g g.bottom (k + 1)).valueOf n ≠ (s.afterRounds g g.bottom k).valueOf n
      then 1 else 0 := by
  unfold changesWithin
  rw [List.range_succ, List.countP_append, List.countP_singleton]
  simp only [decide_eq_true_eq]

/-- Every change of a value adds a bit of evidence. -/
theorem changesWithin_le_rank (n : String) (k : Nat) :
    changesWithin s g n k ≤ ((s.afterRounds g g.bottom k).valueOf n).rank := by
  induction k with
  | zero => exact Nat.zero_le _
  | succ k ih =>
    have hle : (s.afterRounds g g.bottom k).valueOf n ≤ (s.afterRounds g g.bottom (k + 1)).valueOf n :=
      Assignment.leq_iff.1 (afterRounds_leq (Nat.le_succ k)) n
    rw [changesWithin_succ]
    split
    · rename_i hne
      have hlt := Truth.rank_lt_of_lt (lt_of_le_of_ne hle (Ne.symm hne))
      omega
    · have hrank := Truth.rank_le_of_le hle
      omega

/-- The values that never changed are those without evidence. -/
theorem changesWithin_eq_zero_iff (n : String) (k : Nat) :
    changesWithin s g n k = 0 ↔ (s.afterRounds g g.bottom k).valueOf n = .neither := by
  constructor
  · intro hzero
    induction k with
    | zero => exact g.valueOf_bottom n
    | succ k ih =>
      rw [changesWithin_succ] at hzero
      split at hzero
      · omega
      · rename_i hsame
        rw [not_ne_iff.1 hsame]
        exact ih (by omega)
  · intro hneither
    have hle := changesWithin_le_rank (s := s) (g := g) n k
    rw [hneither] at hle
    exact Nat.le_zero.1 hle

end Solver

namespace Run

variable {s : Solver} {g : SentenceGraph} {R : Nat}

/-! ### The trace -/

theorem trace_after_of_lt (htrace : s.config.recordTrace = true)
    (hR : IsLeast (s.stableAfter g g.bottom) R) {k : Nat} (hk : k < R) :
    (after s g k).trace = (List.range (k + 1)).map (s.afterRounds g g.bottom) := by
  induction k with
  | zero => exact if_pos htrace
  | succ k ih =>
    have hfixed : (s.step g (after s g k).current).isFixed = false :=
      Bool.eq_false_iff.2 (mt (isFixed_after_iff s g k).1 (not_mem_stableAfter hR hk))
    rw [after_succ, trace_apply, if_pos (by simp [htrace, hfixed]), ih (by omega), current_after,
      ← s.afterRounds_succ, List.range_succ (n := k + 1), List.map_append]
    rfl

/-- The round that changes nothing is not in the trace. -/
theorem trace_after_least (htrace : s.config.recordTrace = true)
    (hR : IsLeast (s.stableAfter g g.bottom) R) :
    (after s g R).trace = (List.range R).map (s.afterRounds g g.bottom) := by
  obtain ⟨k, rfl⟩ := s.exists_eq_succ_of_mem_stableAfter hR.1
  have hfixed : (s.step g (after s g k).current).isFixed = true :=
    (isFixed_after_iff s g k).2 hR.1
  rw [after_succ, trace_apply, if_neg (by simp [hfixed]), trace_after_of_lt htrace hR (by omega)]

/-! ### The counts -/

theorem get?_changesAfter (s : Solver) (g : SentenceGraph) (k : Nat) (n : String) :
    (changesAfter s g k).get? n =
      if s.changesWithin g n k = 0 then none else some (s.changesWithin g n k) := by
  induction k with
  | zero => rfl
  | succ k ih =>
    rw [get?_changesAfter_succ, ih, Solver.changesWithin_succ]
    by_cases hne :
        (s.afterRounds g g.bottom (k + 1)).valueOf n ≠ (s.afterRounds g g.bottom k).valueOf n
    · have hn : n ∈ g.names := by
        by_contra hn
        have hvalue := s.valueOf_afterRounds_of_not_mem g.names_bottom hn
        exact hne ((hvalue (k + 1)).trans (hvalue k).symm)
      rw [if_pos ⟨hn, hne⟩, if_pos hne, if_neg (Nat.succ_ne_zero _)]
      split
      · rename_i hzero
        rw [hzero]
        rfl
      · rfl
    · rw [if_neg fun h => hne h.2, if_neg hne, Nat.add_zero]

theorem changingRounds_le_totalChanges (s : Solver) (g : SentenceGraph) (k : Nat) :
    (after s g k).metrics.changingRounds ≤ (after s g k).metrics.totalChanges := by
  induction k with
  | zero => exact Nat.zero_le _
  | succ k ih =>
    rw [after_succ, metrics_apply, Metrics.totalChanges_recordRound]
    show _ + (if (s.step g (after s g k).current).changed.isEmpty then 0 else 1) ≤ _
    split
    · omega
    · rename_i hchanged
      rw [List.isEmpty_iff] at hchanged
      have hpos := List.length_pos_iff.2 hchanged
      omega

theorem getD_get?_changesAfter (s : Solver) (g : SentenceGraph) (k : Nat) (n : String) :
    ((changesAfter s g k).get? n).getD 0 = s.changesWithin g n k := by
  rw [get?_changesAfter]
  split
  · rename_i hzero
    exact hzero.symm
  · rfl

theorem get?_changesAfter_eq_none_iff {k : Nat} {n : String} :
    (changesAfter s g k).get? n = none ↔ (s.afterRounds g g.bottom k).valueOf n = .neither := by
  rw [get?_changesAfter, ← Solver.changesWithin_eq_zero_iff]
  split
  · rename_i hzero
    exact iff_of_true rfl hzero
  · rename_i hpos
    exact iff_of_false (Option.some_ne_none _) hpos

theorem count_of_get?_changesAfter {k : Nat} {n : String} {c : Nat}
    (h : (changesAfter s g k).get? n = some c) : c = s.changesWithin g n k ∧ 1 ≤ c ∧ c ≤ 2 := by
  rw [get?_changesAfter] at h
  split at h
  · cases h
  · rename_i hpos
    obtain rfl := Option.some.inj h
    have hrank := Solver.changesWithin_le_rank (s := s) (g := g) n k
    have hheight := ((s.afterRounds g g.bottom k).valueOf n).rank_le_height
    rw [Truth.height] at hheight
    exact ⟨rfl, by omega, by omega⟩

theorem mem_values_changesAfter {k c : Nat} (h : c ∈ (changesAfter s g k).values) : c ≤ 2 := by
  obtain ⟨⟨n, c⟩, hmem, rfl⟩ := List.mem_map.1 h
  exact (count_of_get?_changesAfter ((changesAfter s g k).get?_eq_some_iff.2 hmem)).2.2

theorem totalChanges_after_le (s : Solver) (g : SentenceGraph) (k : Nat) :
    (after s g k).metrics.totalChanges ≤ 2 * g.size := by
  have hlength : (changesAfter s g k).values.length ≤ g.names.length :=
    NameMap.length_values_le fun _ hn => mem_names_of_changesAfter s g hn
  have hsum := List.sum_le_card_nsmul (changesAfter s g k).values 2 fun _ hc =>
    mem_values_changesAfter hc
  rw [Nat.nsmul_eq_mul] at hsum
  rw [g.length_names] at hlength
  rw [Metrics.totalChanges_eq_sum]
  show (changesAfter s g k).values.sum ≤ 2 * g.size
  omega

/-! ### Runs without a record -/

def untraced (r : Run) : Run := { r with trace := [] }

end Run

def Solution.untraced (sol : Solution) : Solution := { sol with trace := [] }

/-- The solver that keeps no trace. -/
def Solver.untraced (s : Solver) : Solver :=
  ⟨{ s.config with recordTrace := false }, s.connectives⟩

namespace Run

variable (s : Solver) (g : SentenceGraph)

theorem settle_untraced (r : Run) :
    r.untraced.settle s.untraced g = (r.settle s g).untraced := by
  have hbound : bound s.untraced g = bound s g := rfl
  unfold settle
  rw [hbound]
  show (if r.phase.isTerminal = true then r.untraced
    else if r.phase = .initializing ∧ g.size = 0 then { r.untraced with phase := .stable }
    else if bound s g ≤ r.metrics.rounds then { r.untraced with phase := .nonConvergent }
    else r.untraced) = _
  split
  · rfl
  split
  · rfl
  split <;> rfl

theorem apply_untraced (o : Round) (r : Run) :
    r.untraced.apply s.untraced o = (r.apply s o).untraced := by
  unfold apply
  split <;> rfl

theorem drive_untraced (r : Run) : r.untraced.drive s.untraced g = (r.drive s g).untraced := by
  have hstep (a : Assignment) : s.untraced.step g a = s.step g a := Solver.step_congr g rfl rfl a
  fun_induction drive s g r with
  | case1 r hterm =>
    have hsettle := settle_untraced s g r
    rw [drive_of_isTerminal (by rw [hsettle]; exact hterm), hsettle]
  | case2 r hterm ih =>
    have hsettle := settle_untraced s g r
    rw [drive, dif_neg (by rw [hsettle]; exact hterm), hsettle, hstep, apply_untraced]
    exact ih

theorem finish_untraced (r : Run) :
    r.untraced.finish s.untraced g = (r.finish s g).map Solution.untraced := by
  have hbound : bound s.untraced g = bound s g := rfl
  unfold finish
  rw [drive_untraced]
  unfold result
  rw [hbound]
  simp only [untraced]
  cases (r.drive s g).phase <;> rfl

end Run

/-- Without a record solving does the same and leaves the trace empty. -/
theorem Solver.solve_untraced (s : Solver) (g : SentenceGraph) :
    s.untraced.solve g = (s.solve g).map Solution.untraced := by
  have hverify : s.untraced.verify = s.verify := rfl
  cases h : s.verify with
  | error e =>
    rw [solve_of_verify_error (hverify.trans h), solve_of_verify_error h]
    rfl
  | ok _ =>
    rw [solve_of_verify (hverify.trans h), solve_of_verify h]
    exact Run.finish_untraced s g (Run.start s g)

/-! ### Solutions -/

/-- What the trace and the counters of a solution have to do with each other. -/
structure Accounted (s : Solver) (g : SentenceGraph) (sol : Solution) : Prop where
  /-- The trace starts without evidence. -/
  first : sol.trace.head? = some g.bottom
  /-- The trace ends with the solution. -/
  last : sol.trace.getLast? = some sol.assignment
  /-- Every assignment holds all evidence of those before it and more. -/
  increasing : sol.trace.Pairwise fun a b => a.leq b = true ∧ a ≠ b
  /-- Every assignment covers exactly the sentences. -/
  covers : ∀ a ∈ sol.trace, a.names = g.names
  /-- Every assignment but the first is what a round makes of the one before it. -/
  steps : ∀ k a b, sol.trace[k]? = some a → sol.trace[k + 1]? = some b → b = (s.step g a).next
  /-- Every round with a change is in the trace. -/
  length_eq : sol.trace.length = sol.changingRounds + 1
  /-- One more round confirms the last assignment. -/
  rounds_eq : sol.rounds = sol.changingRounds + 1
  /-- A sentence is counted once for each change of its value along the trace. -/
  counts : ∀ n, (sol.metrics.changes.get? n).getD 0 = changesAlong sol.trace n
  /-- The sentences without a count are those that end without evidence. -/
  uncounted : ∀ n, sol.metrics.changes.get? n = none ↔ sol.assignment.valueOf n = .neither
  counted : ∀ n c, sol.metrics.changes.get? n = some c → c = 1 ∨ c = 2
  /-- Every round with a change has one, and no sentence has more than two. -/
  total_changes : sol.changingRounds ≤ sol.metrics.totalChanges ∧
    sol.metrics.totalChanges ≤ 2 * g.size
  max_changes : sol.metrics.maxChanges ≤ 2
  /-- The final counts are the numbers of sentences that hold each value held by some. -/
  final_values : ∀ k c, sol.metrics.finalValues.get? k = some c ↔
    ∃ v : Truth, v.name = k ∧ (g.names.countP fun n => sol.assignment.valueOf n = v) = c ∧ 0 < c
  final_total : sol.metrics.finalValues.values.sum = g.size

theorem Run.accounted_after {s : Solver} {g : SentenceGraph} {R : Nat}
    (htrace : s.config.recordTrace = true) (hR : IsLeast (s.stableAfter g g.bottom) R) :
    Accounted s g (after s g R).solution := by
  obtain ⟨k, rfl⟩ := s.exists_eq_succ_of_mem_stableAfter hR.1
  let x := s.afterRounds g g.bottom
  let sol := (after s g (k + 1)).solution
  have hlast : x (k + 1) = x k := hR.1.2
  have htr : sol.trace = (List.range (k + 1)).map x := trace_after_least htrace hR
  have hassign : sol.assignment = x (k + 1) := current_after s g (k + 1)
  have hnames (j : Nat) : (x j).names = g.names := s.names_afterRounds g.names_bottom j
  have hchanging : sol.changingRounds = k := (after_least hR).2
  have hrounds : sol.rounds = k + 1 := rounds_after s g (k + 1)
  exact
    { first := by
        rw [htr, List.range_succ_eq_map]
        rfl
      last := by
        rw [htr, hassign, hlast, List.range_succ, List.map_append]
        exact List.getLast?_concat
      increasing := by
        rw [htr, List.pairwise_map]
        refine List.pairwise_lt_range.imp_of_mem fun {i j} _ hj hij => ?_
        exact ⟨Solver.afterRounds_leq (Nat.le_of_lt hij),
          Solver.afterRounds_ne_of_lt hR hij (List.mem_range.1 hj)⟩
      covers := by
        intro a ha
        rw [htr] at ha
        obtain ⟨j, -, rfl⟩ := List.mem_map.1 ha
        exact hnames j
      steps := by
        intro j a b ha hb
        rw [htr] at ha hb
        obtain rfl := eq_of_getElem?_map_range ha
        obtain rfl := eq_of_getElem?_map_range hb
        rfl
      length_eq := by rw [htr, hchanging, List.length_map, List.length_range]
      rounds_eq := by rw [hrounds, hchanging]
      counts := by
        intro n
        have hwithin : s.changesWithin g n (k + 1) = s.changesWithin g n k := by
          rw [Solver.changesWithin_succ, if_neg (not_ne_iff.2 (congrArg (·.valueOf n) hlast))]
          rfl
        rw [htr, changesAlong_map_range]
        exact (getD_get?_changesAfter s g (k + 1) n).trans hwithin
      uncounted := by
        intro n
        rw [hassign]
        exact get?_changesAfter_eq_none_iff
      counted := by
        intro n c hc
        have hbounds := (count_of_get?_changesAfter hc).2
        omega
      total_changes := by
        have hle := changingRounds_le_totalChanges s g (k + 1)
        exact ⟨hle, totalChanges_after_le s g (k + 1)⟩
      max_changes := foldl_max_le (Nat.zero_le 2) fun c hc => mem_values_changesAfter hc
      final_values := by
        intro key c
        show ((after s g (k + 1)).metrics.recordFinal sol.assignment).finalValues.get? key =
          some c ↔ _
        rw [Metrics.get?_finalValues]
        simp only [Assignment.count_eq_countP]
        rw [hassign, hnames]
      final_total := by
        show ((after s g (k + 1)).metrics.recordFinal sol.assignment).finalValues.values.sum = _
        rw [Metrics.sum_finalValues, hassign, ← NameMap.length_names, hnames, g.length_names] }

theorem Solver.exists_after_of_solve {s : Solver} {g : SentenceGraph} {sol : Solution}
    (hsize : g.size ≠ 0) (h : s.solve g = .ok sol) :
    ∃ R, IsLeast (s.stableAfter g g.bottom) R ∧ sol = (Run.after s g R).solution := by
  cases hverify : s.verify with
  | error e =>
    rw [solve_of_verify_error hverify] at h
    cases h
  | ok _ =>
    obtain ⟨R, hR, -⟩ := s.exists_isLeast_stableAfter g.names_bottom
    rw [solve_of_verify hverify] at h
    by_cases hle : R ≤ Run.bound s g
    · rw [Run.finish_start_of_le hR hsize hle] at h
      cases h
      exact ⟨R, hR, rfl⟩
    · rw [Run.finish_start_of_lt hR hsize (by omega)] at h
      cases h

/-- Whenever a graph with sentences is solved with a record, trace and counters account for the run,
and without a record the solution is the same but for an empty trace. -/
theorem Solver.solve_accounted {c : SolverConfig} {ops : Connectives} {g : SentenceGraph}
    {sol : Solution} (hsize : 1 ≤ g.size) (htrace : c.recordTrace = true)
    (h : (⟨c, ops⟩ : Solver).solve g = .ok sol) :
    Accounted ⟨c, ops⟩ g sol ∧
      (⟨{ c with recordTrace := false }, ops⟩ : Solver).solve g = .ok { sol with trace := [] } := by
  constructor
  · obtain ⟨R, hR, rfl⟩ := exists_after_of_solve (by omega) h
    exact Run.accounted_after htrace hR
  · have huntraced := solve_untraced ⟨c, ops⟩ g
    rw [h] at huntraced
    exact huntraced

/-- The sentence that denies itself rises twice, a fact beside it once. -/
theorem Solver.solve_accounted_liar :
    let c : SolverConfig := { recordTrace := true }
    ∃ g sol,
      SentenceGraph.ofDefinitions [("liar", .neg (.ref "liar")), ("fact", .lit .verum)] = .ok g ∧
      1 ≤ g.size ∧ c.recordTrace = true ∧ (⟨c, .belnap⟩ : Solver).solve g = .ok sol ∧
      Accounted ⟨c, .belnap⟩ g sol ∧
      (⟨{ c with recordTrace := false }, .belnap⟩ : Solver).solve g =
        .ok { sol with trace := [] } := by
  intro c
  obtain ⟨g, hg⟩ : ∃ g, SentenceGraph.ofDefinitions
      [("liar", .neg (.ref "liar")), ("fact", .lit .verum)] = .ok g :=
    SentenceGraph.exists_ofDefinitions (by decide +kernel) (by decide +kernel)
  have hsize : 1 ≤ g.size := by
    rw [SentenceGraph.size, (SentenceGraph.ofDefinitions_eq_ok_iff.1 hg).2.2]
    decide +kernel
  obtain ⟨-, sol, -, hsol, -⟩ := exists_solution (s := ⟨c, .belnap⟩) rfl rfl g
  obtain ⟨haccounted, huntraced⟩ := solve_accounted (c := c) hsize rfl hsol
  exact ⟨g, sol, hg, hsize, rfl, hsol, haccounted, huntraced⟩

end SelfReference
