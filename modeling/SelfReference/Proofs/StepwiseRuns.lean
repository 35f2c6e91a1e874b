import Mathlib.Logic.Function.Iterate
import SelfReference.Proofs.Runs

/-!
# Runs advanced round by round

A run may be advanced any number of times and then driven to its end.  Every state on the way is
faithful: its assignment is what its rounds make of no evidence, its phase says how the last round
went, and a run that has ended stays as it is.  So an advance never changes what becomes of a run.
-/

namespace SelfReference.Run

variable {s : Solver} {g : SentenceGraph}

/-! ### Settling and advancing -/

/-- A settled run has ended before, has nothing to solve, has used up its bound, or goes on. -/
theorem settle_cases (s : Solver) (g : SentenceGraph) (r : Run) :
    r.phase.isTerminal = true ∧ r.settle s g = r ∨
    r.phase = .initializing ∧ g.size = 0 ∧ r.settle s g = { r with phase := .stable } ∨
    r.phase.isTerminal = false ∧ (r.phase = .initializing → g.size ≠ 0) ∧
      bound s g ≤ r.metrics.rounds ∧ r.settle s g = { r with phase := .nonConvergent } ∨
    r.phase.isTerminal = false ∧ r.metrics.rounds < bound s g ∧ r.settle s g = r := by
  by_cases hterm : r.phase.isTerminal = true
  · exact Or.inl ⟨hterm, settle_of_isTerminal hterm⟩
  have hgoing : r.phase.isTerminal = false := Bool.eq_false_iff.2 hterm
  by_cases hempty : r.phase = .initializing ∧ g.size = 0
  · refine Or.inr (Or.inl ⟨hempty.1, hempty.2, ?_⟩)
    rw [settle, if_neg hterm, if_pos hempty]
  have hsize : r.phase = .initializing → g.size ≠ 0 := fun hp h => hempty ⟨hp, h⟩
  by_cases hle : bound s g ≤ r.metrics.rounds
  · refine Or.inr (Or.inr (Or.inl ⟨hgoing, hsize, hle, ?_⟩))
    rw [settle, if_neg hterm, if_neg hempty, if_pos hle]
  · refine Or.inr (Or.inr (Or.inr ⟨hgoing, by omega, ?_⟩))
    rw [settle, if_neg hterm, if_neg hempty, if_neg hle]

theorem settle_settle (r : Run) : (r.settle s g).settle s g = r.settle s g := by
  rcases settle_cases s g r with
    ⟨-, h⟩ | ⟨-, -, h⟩ | ⟨-, -, -, h⟩ | ⟨-, -, h⟩
  · rw [h, h]
  · rw [h]
    exact settle_of_isTerminal rfl
  · rw [h]
    exact settle_of_isTerminal rfl
  · rw [h, h]

theorem advance_of_settle_terminal {r : Run} (h : (r.settle s g).phase.isTerminal = true) :
    r.advance s g = r.settle s g := if_pos h

theorem advance_of_settle_going {r : Run} (h : (r.settle s g).phase.isTerminal = false) :
    r.advance s g = (r.settle s g).apply s (s.step g (r.settle s g).current) :=
  if_neg (by simp [h])

theorem advance_of_isTerminal {r : Run} (h : r.phase.isTerminal = true) : r.advance s g = r := by
  have hsettle : r.settle s g = r := settle_of_isTerminal h
  rw [advance_of_settle_terminal (by rw [hsettle]; exact h), hsettle]

theorem iterate_advance_of_isTerminal {r : Run} (h : r.phase.isTerminal = true) (j : Nat) :
    (advance s g)^[j] r = r :=
  Function.iterate_fixed (advance_of_isTerminal h) j

/-- Driving a run begins with advancing it. -/
theorem drive_advance (r : Run) : (r.advance s g).drive s g = r.drive s g := by
  by_cases hterm : (r.settle s g).phase.isTerminal = true
  · have hsettled : ((r.settle s g).settle s g).phase.isTerminal = true := by
      rw [settle_settle]
      exact hterm
    rw [advance_of_settle_terminal hterm, drive_of_isTerminal hsettled, settle_settle,
      drive_of_isTerminal hterm]
  · have hdrive : r.drive s g =
        ((r.settle s g).apply s (s.step g (r.settle s g).current)).drive s g := by
      conv_lhs => rw [drive, dif_neg hterm]
    rw [advance_of_settle_going (Bool.eq_false_iff.2 hterm), hdrive]

theorem finish_advance (r : Run) : (r.advance s g).finish s g = r.finish s g := by
  rw [finish, drive_advance, finish]

theorem finish_iterate_advance (r : Run) (k : Nat) :
    ((advance s g)^[k] r).finish s g = r.finish s g := by
  induction k generalizing r with
  | zero => rfl
  | succ k ih => rw [Function.iterate_succ_apply, ih, finish_advance]

/-! ### Faithful states -/

/-- Every round so far changed something. -/
def Changing (s : Solver) (g : SentenceGraph) (k : Nat) : Prop :=
  ∀ j < k, s.afterRounds g g.bottom (j + 1) ≠ s.afterRounds g g.bottom j

/-- What a phase tells about the rounds so far. -/
def Explains (s : Solver) (g : SentenceGraph) (k : Nat) : Phase → Prop
  | .initializing => k = 0
  | .iterating m => m = k ∧ 1 ≤ k ∧ Changing s g k
  | .stable => (s.step g (s.afterRounds g g.bottom k)).next = s.afterRounds g g.bottom k
  | .nonConvergent => g.size ≠ 0 ∧ k = bound s g ∧ Changing s g k

structure Faithful (s : Solver) (g : SentenceGraph) (r : Run) : Prop where
  rounds_le : r.metrics.rounds ≤ bound s g
  current_eq : r.current = s.afterRounds g g.bottom r.metrics.rounds
  explained : Explains s g r.metrics.rounds r.phase

theorem faithful_start (s : Solver) (g : SentenceGraph) : Faithful s g (start s g) :=
  ⟨Nat.zero_le _, rfl, rfl⟩

/-- Without sentences no round changes anything. -/
theorem Changing.size_ne_zero {k : Nat} (h : Changing s g k) (hk : 1 ≤ k) : g.size ≠ 0 := by
  intro hsize
  have hempty (k : Nat) : s.afterRounds g g.bottom k = .empty :=
    SentenceGraph.eq_empty_of_size_eq_zero hsize (s.names_afterRounds g.names_bottom k)
  exact h 0 hk ((hempty 1).trans (hempty 0).symm)

namespace Faithful

variable {r : Run} (h : Faithful s g r)
include h

theorem names_current : r.current.names = g.names := by
  rw [h.current_eq, s.names_afterRounds g.names_bottom]

theorem changing (hgoing : r.phase.isTerminal = false) : Changing s g r.metrics.rounds := by
  have hexplained := h.explained
  cases hp : r.phase with
  | initializing =>
    rw [hp] at hexplained
    have hzero : r.metrics.rounds = 0 := hexplained
    intro j hj
    omega
  | iterating m =>
    rw [hp] at hexplained
    exact hexplained.2.2
  | stable => simp [hp, Phase.isTerminal] at hgoing
  | nonConvergent => simp [hp, Phase.isTerminal] at hgoing

theorem phase_eq_initializing (hgoing : r.phase.isTerminal = false)
    (hzero : r.metrics.rounds = 0) : r.phase = .initializing := by
  have hexplained := h.explained
  cases hp : r.phase with
  | initializing => rfl
  | iterating m =>
    rw [hp] at hexplained
    have hpos : 1 ≤ r.metrics.rounds := hexplained.2.1
    omega
  | stable => simp [hp, Phase.isTerminal] at hgoing
  | nonConvergent => simp [hp, Phase.isTerminal] at hgoing

theorem size_ne_zero (hgoing : r.phase.isTerminal = false)
    (hfirst : r.phase = .initializing → g.size ≠ 0) : g.size ≠ 0 := by
  by_cases hzero : r.metrics.rounds = 0
  · exact hfirst (h.phase_eq_initializing hgoing hzero)
  · exact (h.changing hgoing).size_ne_zero (by omega)

theorem settle : Faithful s g (r.settle s g) := by
  rcases settle_cases s g r with
    ⟨-, hs⟩ | ⟨-, hsize, hs⟩ | ⟨hgoing, hfirst, hle, hs⟩ | ⟨-, -, hs⟩
  · rw [hs]
    exact h
  · rw [hs]
    have hempty {a : Assignment} (ha : a.names = g.names) : a = .empty :=
      SentenceGraph.eq_empty_of_size_eq_zero hsize ha
    have hnext := hempty (s.names_step g (s.afterRounds g g.bottom r.metrics.rounds))
    have hlast := hempty (s.names_afterRounds g.names_bottom r.metrics.rounds)
    exact ⟨h.rounds_le, h.current_eq, hnext.trans hlast.symm⟩
  · rw [hs]
    have hused : r.metrics.rounds = bound s g := Nat.le_antisymm h.rounds_le hle
    exact ⟨h.rounds_le, h.current_eq, h.size_ne_zero hgoing hfirst, hused, h.changing hgoing⟩
  · rw [hs]
    exact h

/-- One more round within the bound. -/
theorem apply_step (hgoing : r.phase.isTerminal = false) (hlt : r.metrics.rounds < bound s g) :
    Faithful s g (r.apply s (s.step g r.current)) := by
  have hrounds := rounds_apply s (s.step g r.current) r
  have hphase := phase_apply s (s.step g r.current) r
  have hnext : (s.step g r.current).next = s.afterRounds g g.bottom (r.metrics.rounds + 1) := by
    rw [s.afterRounds_succ, ← h.current_eq]
  have hfixed := s.isFixed_step_iff h.names_current
  refine ⟨by omega, by rw [current_apply, hrounds, hnext], ?_⟩
  rw [hphase, hrounds]
  split
  · rename_i hlast
    have hsame : (s.step g r.current).next = r.current := hfixed.1 hlast
    show (s.step g (s.afterRounds g g.bottom (r.metrics.rounds + 1))).next = _
    rw [← hnext, hsame, hsame]
  · rename_i hlast
    have hchange : (s.step g r.current).next ≠ r.current := mt hfixed.2 hlast
    refine ⟨rfl, by omega, fun j hj => ?_⟩
    -- the round just run is the one after all the earlier ones
    rcases Nat.lt_or_eq_of_le (show j ≤ r.metrics.rounds by omega) with hj | rfl
    · exact h.changing hgoing j hj
    · rw [← hnext, ← h.current_eq]
      exact hchange

theorem advance : Faithful s g (r.advance s g) := by
  by_cases hterm : (r.settle s g).phase.isTerminal = true
  · rw [advance_of_settle_terminal hterm]
    exact h.settle
  · have hgoing : (r.settle s g).phase.isTerminal = false := Bool.eq_false_iff.2 hterm
    have hlt := rounds_lt_bound_of_settle hgoing
    rw [← metrics_settle s g r] at hlt
    rw [advance_of_settle_going hgoing]
    exact h.settle.apply_step hgoing hlt

end Faithful

theorem faithful_iterate_advance (s : Solver) (g : SentenceGraph) (k : Nat) :
    Faithful s g ((Run.advance s g)^[k] (start s g)) := by
  induction k with
  | zero => exact faithful_start s g
  | succ k ih =>
    rw [Function.iterate_succ_apply']
    exact ih.advance

/-- A run is never longer than up to a round that changes nothing. -/
theorem rounds_iterate_advance_le {R : Nat} (hR : R ∈ s.stableAfter g g.bottom) (k : Nat) :
    ((Run.advance s g)^[k] (start s g)).metrics.rounds ≤ R := by
  induction k with
  | zero => exact Nat.zero_le R
  | succ k ih =>
    have h : Faithful s g ((Run.advance s g)^[k] (start s g)) := faithful_iterate_advance s g k
    rw [Function.iterate_succ_apply']
    generalize (Run.advance s g)^[k] (start s g) = r at h ih ⊢
    by_cases hterm : (r.settle s g).phase.isTerminal = true
    · rw [advance_of_settle_terminal hterm, metrics_settle]
      exact ih
    · have hgoing : (r.settle s g).phase.isTerminal = false := Bool.eq_false_iff.2 hterm
      have hchanging := h.settle.changing hgoing
      rw [metrics_settle] at hchanging
      have hne : r.metrics.rounds ≠ R := by
        rintro rfl
        have hlast := hchanging (r.metrics.rounds - 1) (by have := hR.1; omega)
        rw [Nat.sub_add_cancel hR.1] at hlast
        exact hlast hR.2
      rw [advance_of_settle_going hgoing, rounds_apply, metrics_settle]
      omega

/-! ### Runs whose rounds do the same -/

/-- Two solvers do the same round by round, each on its graph, and end a run alike. -/
structure SameRounds (s : Solver) (g : SentenceGraph) (t : Solver) (h : SentenceGraph) : Prop where
  step : ∀ a, s.step g a = t.step h a
  bottom : g.bottom = h.bottom
  size : g.size = h.size
  maxIterations : s.config.maxIterations = t.config.maxIterations
  recordTrace : s.config.recordTrace = t.config.recordTrace

namespace SameRounds

variable {t : Solver} {h : SentenceGraph} (same : SameRounds s g t h)
include same

theorem start_eq : start s g = start t h := by
  unfold start
  rw [same.bottom, same.recordTrace]

theorem bound_eq : bound s g = bound t h := by
  unfold bound SolverConfig.bound
  rw [same.size, same.maxIterations]

theorem settle_eq (r : Run) : r.settle s g = r.settle t h := by
  unfold settle
  rw [same.size, same.bound_eq]

theorem apply_eq (o : Round) (r : Run) : r.apply s o = r.apply t o := by
  unfold apply
  rw [same.recordTrace]

theorem advance_eq (r : Run) : r.advance s g = r.advance t h := by
  unfold advance
  simp only [same.settle_eq, same.step, same.apply_eq]

theorem iterate_advance_eq (k : Nat) :
    (Run.advance s g)^[k] (start s g) = (Run.advance t h)^[k] (start t h) := by
  rw [same.start_eq, funext same.advance_eq]

theorem drive_eq (r : Run) : r.drive s g = r.drive t h := by
  fun_induction drive s g r with
  | case1 r hterm =>
    have hsettle := same.settle_eq r
    rw [drive_of_isTerminal (hsettle ▸ hterm), hsettle]
  | case2 r hterm ih =>
    have hsettle := same.settle_eq r
    conv_rhs => rw [drive, dif_neg (hsettle ▸ hterm)]
    rw [ih, same.apply_eq, same.step, hsettle]

theorem finish_eq (r : Run) : r.finish s g = r.finish t h := by
  unfold finish result
  rw [same.drive_eq, same.bound_eq]

theorem solve_eq (hverify : s.verify = t.verify) : s.solve g = t.solve h := by
  unfold Solver.solve
  rw [hverify, same.start_eq, same.finish_eq]

end SameRounds

/-- However often a run is advanced, finishing it gives what finishing a fresh run gives.  On the way
its rounds stay within the bound and make its assignment of no evidence, its phase tells whether a
round was run, whether the last one changed something and why the run ended, and a run that has
ended is never changed. -/
theorem finish_after_advances (s : Solver) (g : SentenceGraph) (k : Nat) :
    let r := (Run.advance s g)^[k] (start s g)
    let x := s.afterRounds g g.bottom
    r.finish s g = (start s g).finish s g ∧
    r.metrics.rounds ≤ bound s g ∧
    r.current = x r.metrics.rounds ∧
    (r.phase = .initializing ↔ r.metrics.rounds = 0 ∧ r.phase.isTerminal = false) ∧
    (∀ m, r.phase = .iterating m → m = r.metrics.rounds ∧ 1 ≤ m ∧ x m ≠ x (m - 1)) ∧
    (r.phase = .stable → s.step g r.current = ⟨r.current, []⟩) ∧
    (r.phase = .nonConvergent → g.size ≠ 0 ∧ r.metrics.rounds = bound s g ∧
      ∀ j < r.metrics.rounds, x (j + 1) ≠ x j) ∧
    (r.phase.isTerminal = true → ∀ j, (Run.advance s g)^[j] r = r) := by
  intro r x
  have h : Faithful s g r := faithful_iterate_advance s g k
  have hexplained := h.explained
  refine ⟨finish_iterate_advance _ k, h.rounds_le, h.current_eq, ⟨fun hp => ?_, fun hp => ?_⟩,
    fun m hp => ?_, fun hp => ?_, fun hp => ?_, fun hterm j => iterate_advance_of_isTerminal hterm j⟩
  · rw [hp] at hexplained ⊢
    exact ⟨hexplained, rfl⟩
  · exact h.phase_eq_initializing hp.2 hp.1
  · rw [hp] at hexplained
    obtain ⟨rfl, hpos, hchanging⟩ := hexplained
    have hlast := hchanging (r.metrics.rounds - 1) (by omega)
    rw [Nat.sub_add_cancel hpos] at hlast
    exact ⟨rfl, hpos, hlast⟩
  · rw [hp] at hexplained
    have hnext : (s.step g r.current).next = r.current := by
      rw [h.current_eq]
      exact hexplained
    have hunchanged : r.current.changedSince r.current = [] :=
      (Assignment.changedSince_eq_nil_iff rfl).2 rfl
    show Round.mk (s.step g r.current).next ((s.step g r.current).next.changedSince r.current) = _
    rw [hnext, hunchanged]
  · rw [hp] at hexplained
    exact hexplained

end SelfReference.Run
