import SelfReference.Parallel
import SelfReference.Proofs.Construction
import SelfReference.Proofs.Runs

/-!
# Shared rounds

A round shared by tasks computes what a round computes: the pieces make up the sentences in order,
there are at most as many as tasks, and each value comes back to its own name.  The one difference
is that no round can be shared by `Solver.taskLimit` tasks or more.
-/

namespace SelfReference

/-! ### Pieces of a list -/

section Pieces

variable {α : Type} (k : Nat) (l : List α)

theorem ne_nil_of_mem_pieces {p : List α} (h : p ∈ pieces k l) : p ≠ [] := by
  fun_induction pieces k l with
  | case1 => exact absurd h List.not_mem_nil
  | case2 x xs ih =>
    rcases List.mem_cons.1 h with rfl | h
    · exact List.cons_ne_nil _ _
    · exact ih h

theorem length_pieces_le {w : Nat} (hk : 1 ≤ k) (h : l.length ≤ w * k) :
    (pieces k l).length ≤ w := by
  fun_induction pieces k l generalizing w with
  | case1 => exact Nat.zero_le _
  | case2 x xs ih =>
    cases w with
    | zero => simp at h
    | succ w =>
      have hrest : (xs.drop (k - 1)).length ≤ w * k := by
        rw [List.length_cons, Nat.succ_mul] at h
        rw [List.length_drop]
        omega
      rw [List.length_cons]
      exact Nat.succ_le_succ (ih hrest)

end Pieces

namespace Solver

variable (s : Solver) (g : SentenceGraph)

theorem one_le_workers : 1 ≤ s.workers := Nat.le_max_right ..

theorem size_le_workers_mul_pieceSize : g.size ≤ s.workers * s.pieceSize g := by
  have hw := s.one_le_workers
  have hdiv := Nat.div_add_mod (g.size + s.workers - 1) s.workers
  have hmod := Nat.mod_lt (g.size + s.workers - 1) hw
  calc g.size ≤ s.workers * ((g.size + s.workers - 1) / s.workers) := by omega
    _ ≤ s.workers * s.pieceSize g := Nat.mul_le_mul_left _ (Nat.le_max_left ..)

theorem length_pieces_le_workers :
    (pieces (s.pieceSize g) g.sentences.entries).length ≤ s.workers :=
  length_pieces_le _ _ (Nat.le_max_right ..) (s.size_le_workers_mul_pieceSize g)

/-- The values of the tasks, put in a row, are the values of the sentences in order. -/
theorem flatMap_task_values {α β : Type} (k : Nat) (f : α → β) (l : List α) :
    (((pieces k l).map fun piece => Task.spawn fun _ => piece.map f).flatMap Task.get) =
      l.map f := by
  rw [List.flatMap_map]
  show (pieces k l).flatMap (List.map f) = l.map f
  rw [List.flatMap_def, ← List.map_flatten, flatten_pieces]

/-- A shared round computes what a round computes. -/
theorem sharedRound_eq_step (a : Assignment) : s.sharedRound g a = s.step g a := by
  have hpairs : g.names.zip (g.sentences.entries.map fun e => s.update g a e.1 e.2) =
      (g.sentences.map (s.update g a)).entries := by
    show (g.sentences.entries.map (·.1)).zip _ = _
    rw [List.zip_map']
    rfl
  have hvalues := flatMap_task_values (s.pieceSize g)
    (fun e : String × Formula => s.update g a e.1 e.2) g.sentences.entries
  show Round.between a (NameMap.ofList (g.names.zip (List.flatMap Task.get _))) = _
  rw [hvalues, hpairs, NameMap.ofList_entries]
  rfl

theorem taskLimit_eq : taskLimit = 2 ^ 60 := by decide

theorem parallelStep_of_lt (h : s.config.workers < 2 ^ 60) (a : Assignment) :
    s.parallelStep g a = .ok (s.step g a) := by
  have hlt : ¬ taskLimit ≤ s.workers := by
    rw [taskLimit_eq, workers]
    omega
  rw [parallelStep, if_neg hlt, sharedRound_eq_step]

theorem parallelStep_of_le (h : 2 ^ 60 ≤ s.config.workers) (a : Assignment) :
    s.parallelStep g a = .error .tooManyTasks := by
  have hle : taskLimit ≤ s.workers := by
    rw [taskLimit_eq, workers]
    omega
  rw [parallelStep, if_pos hle]

end Solver

/-! ### Runs of shared rounds -/

namespace Run

variable {s : Solver} {g : SentenceGraph}

theorem driveParallel_of_isTerminal {r : Run} (h : (r.settle s g).phase.isTerminal = true) :
    r.driveParallel s g = .ok (r.drive s g) := by
  rw [driveParallel, dif_pos h, drive_of_isTerminal h]

/-- As long as rounds can be shared, a shared run ends as the run does. -/
theorem driveParallel_eq_drive (h : s.config.workers < 2 ^ 60) (r : Run) :
    r.driveParallel s g = .ok (r.drive s g) := by
  fun_induction drive s g r with
  | case1 r hterm =>
    rw [driveParallel_of_isTerminal hterm, drive_of_isTerminal hterm]
  | case2 r hterm ih =>
    rw [driveParallel, dif_neg hterm]
    split
    · rename_i e he
      rw [s.parallelStep_of_lt g h] at he
      cases he
    · rename_i o ho
      rw [s.parallelStep_of_lt g h] at ho
      cases ho
      exact ih

theorem driveParallel_of_le (h : 2 ^ 60 ≤ s.config.workers) {r : Run}
    (hterm : (r.settle s g).phase.isTerminal = false) :
    r.driveParallel s g = .error .tooManyTasks := by
  rw [driveParallel, dif_neg (by simp [hterm])]
  split
  · rename_i e he
    rw [s.parallelStep_of_le g h] at he
    cases he
    rfl
  · rename_i o ho
    rw [s.parallelStep_of_le g h] at ho
    cases ho

/-- Only a run with nothing to solve or no round to spend ends before its first round. -/
theorem isTerminal_settle_start_iff :
    ((start s g).settle s g).phase.isTerminal = true ↔
      g.size = 0 ∨ s.config.bound g.size = 0 := by
  rw [settle, if_neg (by simp [start, Phase.isTerminal])]
  by_cases hsize : g.size = 0
  · rw [if_pos ⟨rfl, hsize⟩]
    simp [Phase.isTerminal, hsize]
  rw [if_neg (fun h => hsize h.2)]
  show (if s.config.bound g.size ≤ 0 then _ else _ : Run).phase.isTerminal = true ↔ _
  by_cases hbound : s.config.bound g.size = 0
  · simp [Phase.isTerminal, hbound]
  · rw [if_neg (by omega)]
    simp [start, Phase.isTerminal, hsize, hbound]

end Run

namespace Solver

variable {s : Solver} {g : SentenceGraph}

theorem solveParallel_of_verify (h : s.verify = .ok ()) :
    s.solveParallel g =
      ((Run.start s g).driveParallel s g).bind fun r => r.result s g := by
  rw [solveParallel, h]
  rfl

theorem solveParallel_of_drive (h : s.verify = .ok ())
    (hdrive : (Run.start s g).driveParallel s g = .ok ((Run.start s g).drive s g)) :
    s.solveParallel g = s.solve g := by
  rw [solveParallel_of_verify h, solve_of_verify h, hdrive]
  rfl

theorem solveParallel_of_verify_error (h : s.verify ≠ .ok ()) :
    s.solveParallel g = s.solve g := by
  cases hverify : s.verify with
  | ok _ => exact absurd hverify h
  | error e =>
    rw [solveParallel, solve, hverify]
    rfl

theorem solve_ne_tooManyTasks : s.solve g ≠ .error .tooManyTasks := by
  intro h
  rcases error_of_solve h with ⟨d, hd⟩ | ⟨m, a, hma⟩
  · cases hd
  · cases hma

/-- The pieces of a shared round hold every sentence once and are no more than the tasks, and the
round and the whole run come out as without sharing, unless a round would have to be shared by as
many tasks as cannot be kept track of. -/
theorem parallel_eq_sequential_iff (s : Solver) (g : SentenceGraph) :
    ((pieces (s.pieceSize g) g.sentences.entries).flatten = g.sentences.entries ∧
      (∀ p ∈ pieces (s.pieceSize g) g.sentences.entries, p ≠ []) ∧
      (pieces (s.pieceSize g) g.sentences.entries).length ≤ max s.config.workers 1) ∧
    (∀ a, s.parallelStep g a =
      if s.config.workers < 2 ^ 60 then .ok (s.step g a) else .error .tooManyTasks) ∧
    (s.solveParallel g = s.solve g ↔
      s.config.workers < 2 ^ 60 ∨ s.verify ≠ .ok () ∨ g.size = 0 ∨ s.config.bound g.size = 0) := by
  refine ⟨⟨flatten_pieces _ _, fun p hp => ne_nil_of_mem_pieces _ _ hp,
    s.length_pieces_le_workers g⟩, fun a => ?_, ?_⟩
  · by_cases h : s.config.workers < 2 ^ 60
    · rw [if_pos h, s.parallelStep_of_lt g h]
    · rw [if_neg h, s.parallelStep_of_le g (by omega)]
  by_cases hverify : s.verify = .ok ()
  swap
  · exact ⟨fun _ => Or.inr (Or.inl hverify), fun _ => solveParallel_of_verify_error hverify⟩
  by_cases hworkers : s.config.workers < 2 ^ 60
  · exact ⟨fun _ => Or.inl hworkers,
      fun _ => solveParallel_of_drive hverify (Run.driveParallel_eq_drive hworkers _)⟩
  by_cases hterm : ((Run.start s g).settle s g).phase.isTerminal = true
  · exact ⟨fun _ => Or.inr (Or.inr (Run.isTerminal_settle_start_iff.1 hterm)),
      fun _ => solveParallel_of_drive hverify (Run.driveParallel_of_isTerminal hterm)⟩
  · have hfails : s.solveParallel g = .error .tooManyTasks := by
      rw [solveParallel_of_verify hverify,
        Run.driveParallel_of_le (by omega) (Bool.eq_false_iff.2 hterm)]
      rfl
    constructor
    · intro heq
      exact absurd (heq.symm.trans hfails) solve_ne_tooManyTasks
    · rintro (h | h | h)
      · exact absurd h hworkers
      · exact absurd hverify h
      · exact absurd (Run.isTerminal_settle_start_iff.2 h) hterm

/-- The sentence that denies itself is solved, but not by a run shared by `2 ^ 60` tasks. -/
theorem parallel_ne_sequential_liar :
    ∃ g, SentenceGraph.ofDefinitions [("L", .neg (.ref "L"))] = .ok g ∧
      (⟨{ workers := 2 ^ 60 }, .belnap⟩ : Solver).parallelStep g g.bottom =
        .error .tooManyTasks ∧
      (⟨{ workers := 2 ^ 60 }, .belnap⟩ : Solver).solveParallel g = .error .tooManyTasks ∧
      ∃ sol, (⟨{ workers := 2 ^ 60 }, .belnap⟩ : Solver).solve g = .ok sol := by
  obtain ⟨g, hg⟩ : ∃ g, SentenceGraph.ofDefinitions [("L", .neg (.ref "L"))] = .ok g :=
    SentenceGraph.exists_ofDefinitions (by decide +kernel) (by decide +kernel)
  have hsize : g.size = 1 := by
    rw [SentenceGraph.size, (SentenceGraph.ofDefinitions_eq_ok_iff.1 hg).2.2]
    rfl
  have hterm : ((Run.start ⟨{ workers := 2 ^ 60 }, .belnap⟩ g).settle
      ⟨{ workers := 2 ^ 60 }, .belnap⟩ g).phase.isTerminal = false := by
    rw [Bool.eq_false_iff, Ne, Run.isTerminal_settle_start_iff, hsize]
    decide
  refine ⟨g, hg, parallelStep_of_le _ g le_rfl _, ?_, ?_⟩
  · rw [solveParallel_of_verify rfl, Run.driveParallel_of_le le_rfl hterm]
    rfl
  · obtain ⟨_, sol, -, hsol, -⟩ := exists_solution (s := ⟨{ workers := 2 ^ 60 }, .belnap⟩)
      rfl rfl g
    exact ⟨sol, hsol⟩

end Solver

end SelfReference
