import SelfReference.Run
import SelfReference.Proofs.Rounds

/-!
# Runs and their bound

A run whose bound is out of the way is the sequence of rounds from no evidence.  Driving a run to
its end stops at the first round that changes nothing if the bound lets it, and at the bound
otherwise.  The main statement gives the outcome of solving for every bound.
-/

namespace SelfReference

/-! ### Moves of a run -/

namespace Run

theorem current_apply (s : Solver) (o : Round) (r : Run) : (r.apply s o).current = o.next := by
  unfold apply
  split <;> rfl

theorem phase_apply (s : Solver) (o : Round) (r : Run) :
    (r.apply s o).phase = if o.isFixed then .stable else .iterating (r.metrics.rounds + 1) := by
  unfold apply
  split <;> rfl

theorem metrics_apply (s : Solver) (o : Round) (r : Run) :
    (r.apply s o).metrics = r.metrics.recordRound o.changed := by
  unfold apply
  split <;> rfl

theorem changingRounds_apply (s : Solver) (o : Round) (r : Run) :
    (r.apply s o).metrics.changingRounds =
      r.metrics.changingRounds + if o.isFixed then 0 else 1 := by
  rw [metrics_apply]
  rfl

theorem trace_apply (s : Solver) (o : Round) (r : Run) :
    (r.apply s o).trace =
      if s.config.recordTrace && !o.isFixed then r.trace ++ [o.next] else r.trace := by
  unfold apply
  cases o.isFixed <;> cases s.config.recordTrace <;> rfl

theorem settle_of_isTerminal {s : Solver} {g : SentenceGraph} {r : Run}
    (h : r.phase.isTerminal = true) : r.settle s g = r := by
  rw [settle, if_pos h]

theorem settle_of_rounds_lt {s : Solver} {g : SentenceGraph} {r : Run} (hsize : g.size ≠ 0)
    (hphase : r.phase.isTerminal = false) (hlt : r.metrics.rounds < bound s g) :
    r.settle s g = r := by
  rw [settle, if_neg (by simp [hphase]), if_neg (fun h => hsize h.2), if_neg (by omega)]

theorem settle_of_bound_le {s : Solver} {g : SentenceGraph} {r : Run} (hsize : g.size ≠ 0)
    (hphase : r.phase.isTerminal = false) (hle : bound s g ≤ r.metrics.rounds) :
    r.settle s g = { r with phase := .nonConvergent } := by
  rw [settle, if_neg (by simp [hphase]), if_neg (fun h => hsize h.2), if_pos hle]

theorem drive_of_isTerminal {s : Solver} {g : SentenceGraph} {r : Run}
    (h : (r.settle s g).phase.isTerminal = true) : r.drive s g = r.settle s g := by
  rw [drive, dif_pos h]

theorem drive_of_settle_eq {s : Solver} {g : SentenceGraph} {r : Run} (hsettle : r.settle s g = r)
    (hphase : r.phase.isTerminal = false) :
    r.drive s g = (r.apply s (s.step g r.current)).drive s g := by
  rw [drive, dif_neg (by simp [hsettle, hphase]), hsettle]

/-! ### The run without a bound -/

/-- The run after so many rounds, whatever its bound. -/
def after (s : Solver) (g : SentenceGraph) : Nat → Run
  | 0 => start s g
  | k + 1 => (after s g k).apply s (s.step g (after s g k).current)

theorem after_congr {s t : Solver} (hconn : s.connectives = t.connectives)
    (hground : s.config.grounding = t.config.grounding)
    (htrace : s.config.recordTrace = t.config.recordTrace) (g : SentenceGraph) (k : Nat) :
    after s g k = after t g k := by
  induction k with
  | zero =>
    show start s g = start t g
    unfold start
    rw [htrace]
  | succ k ih =>
    have happly (o : Round) (r : Run) : r.apply s o = r.apply t o := by
      unfold apply
      rw [htrace]
    show (after s g k).apply s (s.step g (after s g k).current) =
      (after t g k).apply t (t.step g (after t g k).current)
    rw [ih, happly, Solver.step_congr g hconn hground]

/-- What a stable run gives. -/
def solution (r : Run) : Solution :=
  ⟨r.current, .stable, r.trace, r.metrics.recordFinal r.current⟩

variable (s : Solver) (g : SentenceGraph)

theorem after_succ (k : Nat) :
    after s g (k + 1) = (after s g k).apply s (s.step g (after s g k).current) := rfl

theorem current_after (k : Nat) : (after s g k).current = s.afterRounds g g.bottom k := by
  induction k with
  | zero => rfl
  | succ k ih => rw [after_succ, current_apply, ih, Solver.afterRounds_succ]

theorem rounds_after (k : Nat) : (after s g k).metrics.rounds = k := by
  induction k with
  | zero => rfl
  | succ k ih => rw [after_succ, rounds_apply, ih]

theorem isFixed_after_iff (k : Nat) :
    (s.step g (after s g k).current).isFixed = true ↔ k + 1 ∈ s.stableAfter g g.bottom := by
  rw [current_after, s.isFixed_step_iff (s.names_afterRounds g.names_bottom k)]
  exact ⟨fun h => ⟨by omega, h⟩, fun h => h.2⟩

theorem phase_after_succ_of_mem {k : Nat} (h : k + 1 ∈ s.stableAfter g g.bottom) :
    (after s g (k + 1)).phase = .stable := by
  rw [after_succ, phase_apply, if_pos ((isFixed_after_iff s g k).2 h)]

theorem phase_after_succ_of_not_mem {k : Nat} (h : k + 1 ∉ s.stableAfter g g.bottom) :
    (after s g (k + 1)).phase = .iterating (k + 1) := by
  rw [after_succ, phase_apply, if_neg (mt (isFixed_after_iff s g k).1 h), rounds_after]

section Least

variable {s : Solver} {g : SentenceGraph} {R : Nat} (hR : IsLeast (s.stableAfter g g.bottom) R)
include hR

theorem not_mem_stableAfter {k : Nat} (hk : k < R) : k ∉ s.stableAfter g g.bottom :=
  fun h => absurd (hR.2 h) (by omega)

theorem isTerminal_after_of_lt {k : Nat} (hk : k < R) :
    (after s g k).phase.isTerminal = false := by
  cases k with
  | zero => rfl
  | succ k => rw [phase_after_succ_of_not_mem s g (not_mem_stableAfter hR hk)]; rfl

theorem changingRounds_after_of_lt {k : Nat} (hk : k < R) :
    (after s g k).metrics.changingRounds = k := by
  induction k with
  | zero => rfl
  | succ k ih =>
    have hfixed := mt (isFixed_after_iff s g k).1 (not_mem_stableAfter hR hk)
    rw [after_succ, changingRounds_apply, if_neg hfixed, ih (by omega)]

/-- The first round without change is the last one of the run. -/
theorem after_least :
    (after s g R).phase = .stable ∧ (after s g R).metrics.changingRounds = R - 1 := by
  obtain ⟨k, rfl⟩ := s.exists_eq_succ_of_mem_stableAfter hR.1
  have hfixed := (isFixed_after_iff s g k).2 hR.1
  refine ⟨phase_after_succ_of_mem s g hR.1, ?_⟩
  rw [after_succ, changingRounds_apply, if_pos hfixed, changingRounds_after_of_lt hR (by omega)]
  rfl

/-- Driven from any of its rounds, a run ends at the first round without change or at its
bound. -/
theorem drive_after (hsize : g.size ≠ 0) {k : Nat} (hk : k < R) (hbound : k ≤ bound s g) :
    (after s g k).drive s g =
      if R ≤ bound s g then after s g R
      else { after s g (bound s g) with phase := .nonConvergent } := by
  have hphase := isTerminal_after_of_lt hR hk
  -- the induction is on the rounds that the bound still allows
  induction hleft : bound s g - k generalizing k with
  | zero =>
    have hkb : k = bound s g := by omega
    have hsettle : (after s g k).settle s g = { after s g k with phase := .nonConvergent } :=
      settle_of_bound_le hsize hphase (by rw [rounds_after]; omega)
    rw [drive_of_isTerminal (by rw [hsettle]; rfl), hsettle, if_neg (by omega), hkb]
  | succ left ih =>
    have hsettle : (after s g k).settle s g = after s g k :=
      settle_of_rounds_lt hsize hphase (by rw [rounds_after]; omega)
    rw [drive_of_settle_eq hsettle hphase, ← after_succ]
    by_cases hlast : k + 1 = R
    · have hstable : (after s g (k + 1)).phase.isTerminal = true := by
        rw [hlast, (after_least hR).1]
        rfl
      have hrest : (after s g (k + 1)).settle s g = after s g (k + 1) :=
        settle_of_isTerminal hstable
      rw [drive_of_isTerminal (by rw [hrest]; exact hstable), hrest, if_pos (by omega), hlast]
    · have hk' : k + 1 < R := by omega
      exact ih hk' (by omega) (isTerminal_after_of_lt hR hk') (by omega)

theorem finish_start_of_le (hsize : g.size ≠ 0) (hle : R ≤ bound s g) :
    (start s g).finish s g =
      .ok ⟨(after s g R).current, .stable, (after s g R).trace,
        (after s g R).metrics.recordFinal (after s g R).current⟩ := by
  have hdrive := drive_after hR hsize (k := 0) hR.1.1 (Nat.zero_le _)
  rw [if_pos hle] at hdrive
  show ((after s g 0).drive s g).result s g = _
  rw [hdrive, result, (after_least hR).1]

theorem finish_start_of_lt (hsize : g.size ≠ 0) (hlt : bound s g < R) :
    (start s g).finish s g =
      .error (.nonConvergence (bound s g) (s.afterRounds g g.bottom (bound s g))) := by
  have hdrive := drive_after hR hsize (k := 0) hR.1.1 (Nat.zero_le _)
  rw [if_neg (by omega)] at hdrive
  show ((after s g 0).drive s g).result s g = _
  rw [hdrive, result, ← current_after]

end Least

theorem finish_start_of_size_eq_zero (hsize : g.size = 0) :
    (start s g).finish s g =
      .ok ⟨g.bottom, .stable, (start s g).trace, (start s g).metrics.recordFinal g.bottom⟩ := by
  have hsettle : (start s g).settle s g = { start s g with phase := .stable } := by
    rw [settle, if_neg (by simp [start, Phase.isTerminal]), if_pos ⟨rfl, hsize⟩]
  have hdrive : (start s g).drive s g = { start s g with phase := .stable } := by
    rw [drive_of_isTerminal (by rw [hsettle]; rfl), hsettle]
  rw [finish, hdrive]
  rfl

end Run

/-! ### Solving under every bound -/

namespace Solver

theorem solve_of_verify {s : Solver} (h : s.verify = .ok ()) (g : SentenceGraph) :
    s.solve g = (Run.start s g).finish s g := by
  rw [solve, h]
  rfl

/-- A complaint about the connectives is the only one before the first round. -/
theorem exists_nonMonotone_of_verify {s : Solver} {e : Error} (h : s.verify = .error e) :
    ∃ d, e = .nonMonotone d := by
  unfold verify at h
  split at h
  · split at h
    · cases h
    · cases h
      exact ⟨_, rfl⟩
  · cases h

theorem solve_of_verify_error {s : Solver} {e : Error} (h : s.verify = .error e)
    (g : SentenceGraph) : s.solve g = .error e := by
  rw [solve, h]
  rfl

/-- Solving fails only because of the connectives or at the bound. -/
theorem error_of_solve {s : Solver} {g : SentenceGraph} {e : Error} (h : s.solve g = .error e) :
    (∃ d, e = .nonMonotone d) ∨ ∃ m a, e = .nonConvergence m a := by
  cases hverify : s.verify with
  | error _ =>
    rw [solve_of_verify_error hverify] at h
    cases h
    exact Or.inl (exists_nonMonotone_of_verify hverify)
  | ok _ =>
    rw [solve_of_verify hverify, Run.finish, Run.result] at h
    split at h
    · cases h
    · cases h
      exact Or.inr ⟨_, _, rfl⟩

/-- With the bound that is set for it by default, a run ends at its first round without change; a
run without sentences ends before its first round. -/
theorem solve_eq_solution {s : Solver} (hverify : s.verify = .ok ())
    (hbound : s.config.maxIterations = none) (g : SentenceGraph) :
    ∃ R, IsLeast (s.stableAfter g g.bottom) R ∧
      s.solve g = .ok (Run.after s g (if g.size = 0 then 0 else R)).solution := by
  obtain ⟨R, hR, hle⟩ := s.exists_isLeast_stableAfter g.names_bottom
  refine ⟨R, hR, ?_⟩
  rw [solve_of_verify hverify]
  by_cases hsize : g.size = 0
  · rw [if_pos hsize]
    exact Run.finish_start_of_size_eq_zero s g hsize
  · have hlimit : R ≤ Run.bound s g := by
      rw [Run.bound, SolverConfig.bound, hbound, Option.getD_none]
      omega
    rw [if_neg hsize]
    exact Run.finish_start_of_le hR hsize hlimit

theorem exists_solution_rounds {s : Solver} (hverify : s.verify = .ok ())
    (hbound : s.config.maxIterations = none) (g : SentenceGraph) :
    ∃ R sol, IsLeast (s.stableAfter g g.bottom) R ∧ s.solve g = .ok sol ∧
      sol.assignment = s.afterRounds g g.bottom R ∧ sol.rounds = if g.size = 0 then 0 else R := by
  obtain ⟨R, hR, hsolve⟩ := solve_eq_solution hverify hbound g
  refine ⟨R, _, hR, hsolve, ?_, Run.rounds_after s g _⟩
  show (Run.after s g _).current = _
  rw [Run.current_after]
  by_cases hsize : g.size = 0
  · have hempty (k : Nat) : s.afterRounds g g.bottom k = .empty :=
      SentenceGraph.eq_empty_of_size_eq_zero hsize (s.names_afterRounds g.names_bottom k)
    rw [hempty, hempty]
  · rw [if_neg hsize]

theorem exists_solution {s : Solver} (hverify : s.verify = .ok ())
    (hbound : s.config.maxIterations = none) (g : SentenceGraph) :
    ∃ R sol, IsLeast (s.stableAfter g g.bottom) R ∧ s.solve g = .ok sol ∧
      sol.assignment = s.afterRounds g g.bottom R := by
  obtain ⟨R, sol, hR, hsolve, hassign, -⟩ := exists_solution_rounds hverify hbound g
  exact ⟨R, sol, hR, hsolve, hassign⟩

/-- Solving ends with the first round without change where the bound allows that many rounds, with
one and the same solution; otherwise it gives up at the bound.  A graph without sentences needs no
round at all. -/
theorem solve_eq_of_bound (c : SolverConfig) (ops : Connectives) (g : SentenceGraph) :
    let s : Solver := ⟨c, ops⟩
    let bounded (m : Option Nat) : Solver :=
      ⟨{ c with maxIterations := m, verifyOperators := false }, ops⟩
    let limit (m : Option Nat) : Nat := m.getD (2 * g.size + 2)
    (1 ≤ g.size → ∃ R sol,
      IsLeast (s.stableAfter g g.bottom) R ∧ R ≤ 2 * g.size + 1 ∧
      sol.phase = .stable ∧ sol.rounds = R ∧ sol.changingRounds = R - 1 ∧
      sol.assignment = s.afterRounds g g.bottom R ∧
      ∀ m, (R ≤ limit m → (bounded m).solve g = .ok sol) ∧
        (limit m < R → (bounded m).solve g =
          .error (.nonConvergence (limit m) (s.afterRounds g g.bottom (limit m))))) ∧
    (g.size = 0 → ∀ m, ∃ sol, (bounded m).solve g = .ok sol ∧
      sol.phase = .stable ∧ sol.assignment = .empty ∧ sol.rounds = 0) := by
  intro s bounded limit
  have hsolve (m : Option Nat) :
      (bounded m).solve g = (Run.start (bounded m) g).finish (bounded m) g :=
    solve_of_verify rfl g
  constructor
  · intro hsize
    have hsize' : g.size ≠ 0 := by omega
    obtain ⟨R, hR, hbound⟩ := s.exists_isLeast_stableAfter g.names_bottom
    refine ⟨R, ⟨(Run.after s g R).current, .stable, (Run.after s g R).trace,
      (Run.after s g R).metrics.recordFinal (Run.after s g R).current⟩, hR, hbound, rfl,
      Run.rounds_after s g R, (Run.after_least hR).2, Run.current_after s g R, fun m => ?_⟩
    -- the rounds do not depend on the bound
    have hR' : IsLeast ((bounded m).stableAfter g g.bottom) R := by
      rw [stableAfter_congr (s := bounded m) (t := s) g rfl rfl]
      exact hR
    rw [hsolve]
    constructor
    · intro hle
      rw [Run.finish_start_of_le hR' hsize' hle,
        Run.after_congr (s := bounded m) (t := s) rfl rfl rfl]
    · intro hlt
      rw [Run.finish_start_of_lt hR' hsize' hlt,
        afterRounds_congr (s := bounded m) (t := s) g rfl rfl]
      rfl
  · intro hsize m
    rw [hsolve, Run.finish_start_of_size_eq_zero _ _ hsize,
      NameMap.eq_empty_of_names (g.names_bottom.trans (g.names_eq_nil hsize))]
    exact ⟨_, rfl, rfl, rfl, rfl⟩

end Solver

end SelfReference
