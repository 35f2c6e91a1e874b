import SelfReference.Program.Commands
import SelfReference.Proofs.SharedRounds

/-!
# Outcomes of several files

Solving a list of files answers with a list of outcomes, each in the place of its path.  A file
solved beside others comes out as it does on its own; the one exception are rounds shared by as many
tasks as cannot be kept track of, which turn the outcome of a loaded file into an error in its
place.
-/

namespace SelfReference.Solver

variable (s : Solver) (files : Files)

/-! ### Files on their own -/

def solveFile (path : String) : Except Error Solution :=
  (SentenceGraph.load files path).bind s.solve

/-- A round is run, and it is to be shared by more tasks than can be kept track of. -/
def Overtasked (g : SentenceGraph) : Prop :=
  2 ^ 60 ≤ s.config.workers ∧ s.verify = .ok () ∧ g.size ≠ 0 ∧ s.config.bound g.size ≠ 0

instance (g : SentenceGraph) : Decidable (s.Overtasked g) := inferInstanceAs (Decidable (_ ∧ _))

/-- The same file with its rounds shared. -/
def solveFileShared (path : String) : Except Error Solution :=
  (SentenceGraph.load files path).bind fun g =>
    if s.Overtasked g then .error (.worker "Solve task failed: capacity overflow") else s.solve g

/-! ### Shared rounds -/

theorem solveParallel_of_overtasked {g : SentenceGraph} (h : s.Overtasked g) :
    s.solveParallel g = .error .tooManyTasks := by
  obtain ⟨hworkers, hverify, hsize, hbound⟩ := h
  have hgoing : ((Run.start s g).settle s g).phase.isTerminal = false := by
    rw [Bool.eq_false_iff, Ne, Run.isTerminal_settle_start_iff]
    rintro (hzero | hzero)
    · exact hsize hzero
    · exact hbound hzero
  rw [solveParallel_of_verify hverify, Run.driveParallel_of_le hworkers hgoing]
  rfl

theorem solveParallel_of_not_overtasked {g : SentenceGraph} (h : ¬ s.Overtasked g) :
    s.solveParallel g = s.solve g := by
  by_cases hverify : s.verify = .ok ()
  swap
  · exact solveParallel_of_verify_error hverify
  by_cases hworkers : s.config.workers < 2 ^ 60
  · exact solveParallel_of_drive hverify (Run.driveParallel_eq_drive hworkers _)
  · have hterm : ((Run.start s g).settle s g).phase.isTerminal = true := by
      rw [Run.isTerminal_settle_start_iff]
      by_contra hnone
      rw [not_or] at hnone
      exact h ⟨by omega, hverify, hnone.1, hnone.2⟩
    exact solveParallel_of_drive hverify (Run.driveParallel_of_isTerminal hterm)

theorem taskResult_solve (g : SentenceGraph) : taskResult (s.solve g) = s.solve g := by
  unfold taskResult
  split
  · rename_i h
    exact absurd h solve_ne_tooManyTasks
  · rfl

theorem taskResult_solveParallel (g : SentenceGraph) :
    taskResult (s.solveParallel g) =
      if s.Overtasked g then .error (.worker "Solve task failed: capacity overflow")
      else s.solve g := by
  split
  · rename_i h
    rw [s.solveParallel_of_overtasked h]
    rfl
  · rename_i h
    rw [s.solveParallel_of_not_overtasked h, taskResult_solve]

theorem solveAll_eq_map (gs : List SentenceGraph) :
    s.solveAll gs = gs.map fun g => taskResult (s.solveParallel g) := by
  show (gs.map fun g => Task.spawn fun _ => taskResult (s.solveParallel g)).map Task.get = _
  rw [List.map_map]
  rfl

/-! ### Outcomes in the places of their paths -/

/-- Whatever files cannot be loaded, the results of the others come back to their own places. -/
theorem placeResults_eq_map (f : SentenceGraph → Except Error Solution)
    (loaded : List (String × Except Error SentenceGraph)) :
    placeResults loaded ((loaded.filterMap fun l => l.2.toOption).map f) =
      loaded.map fun l => ⟨l.1, l.2.bind f⟩ := by
  induction loaded with
  | nil => rfl
  | cons l loaded ih =>
    obtain ⟨path, e | g⟩ := l
    · -- an error takes no result off
      exact congrArg _ ih
    · exact congrArg _ ih

theorem solveFiles_eq_map (paths : List String) :
    s.solveFiles files paths = paths.map fun path => ⟨path, s.solveFile files path⟩ := by
  show List.map _ (List.map _ paths) = _
  rw [List.map_map]
  rfl

theorem solveFilesParallel_eq_map (paths : List String) :
    s.solveFilesParallel files paths =
      paths.map fun path => ⟨path, s.solveFileShared files path⟩ := by
  show placeResults (paths.map fun path => (path, SentenceGraph.load files path))
    (s.solveAll _) = _
  rw [solveAll_eq_map, placeResults_eq_map, List.map_map]
  simp only [taskResult_solveParallel]
  rfl

theorem solve_ne_worker (g : SentenceGraph) (d : String) : s.solve g ≠ .error (.worker d) := by
  intro h
  rcases error_of_solve h with ⟨d', hd⟩ | ⟨m, a, hma⟩
  · cases hd
  · cases hma

theorem solveFileShared_eq_iff {path : String} :
    s.solveFileShared files path = s.solveFile files path ↔
      ∀ g, SentenceGraph.load files path = .ok g → ¬ s.Overtasked g := by
  unfold solveFileShared solveFile
  cases hload : SentenceGraph.load files path with
  | error e => exact ⟨fun _ g hg => absurd hg (by simp), fun _ => rfl⟩
  | ok g =>
    show (if s.Overtasked g then _ else s.solve g) = s.solve g ↔ _
    by_cases hover : s.Overtasked g
    · rw [if_pos hover]
      exact ⟨fun h => absurd h.symm (s.solve_ne_worker g _), fun h => absurd hover (h g rfl)⟩
    · rw [if_neg hover]
      refine ⟨fun _ h hh => ?_, fun _ => rfl⟩
      obtain rfl : g = h := Except.ok.inj hh
      exact hover

/-! ### What the command reports -/

theorem runSolve_failure (style : Style) (config : SolverConfig) (parallel : Bool)
    (paths : List String) :
    (Command.runSolve style config parallel files paths).failure =
      let t : Solver := { config }
      let os := if parallel then t.solveFilesParallel files paths else t.solveFiles files paths
      if ∀ o ∈ os, o.isOk = true then none
      else some (.someFiles (os.countP fun o => !o.isOk) paths.length) := by
  show (if (List.filter _ _).length = 0 then none
    else some (Failure.someFiles (List.filter _ _).length (List.length _))) = _
  generalize hos : (if parallel = true then ({ config } : Solver).solveFilesParallel files paths
    else ({ config } : Solver).solveFiles files paths) = os
  have hlength : os.length = paths.length := by
    rw [← hos, apply_ite List.length, solveFilesParallel_eq_map, solveFiles_eq_map,
      List.length_map, List.length_map, ite_self]
  have hnone : os.countP (fun o => !o.isOk) = 0 ↔ ∀ o ∈ os, o.isOk = true := by
    simp only [List.countP_eq_zero, Bool.not_eq_true', Bool.not_eq_false]
  rw [← List.countP_eq_length_filter, hlength]
  simp only [hnone, hos]

/-- The outcomes are in the places of their paths: each file by itself, whatever becomes of the
others.  Shared rounds change none of them unless a loaded file needs a round shared by more tasks
than can be kept track of, which is then an error in its own place.  The command fails exactly if
some outcome is an error, with how many of how many are. -/
theorem solveFiles_in_place (s : Solver) (files : Files) (paths : List String) :
    s.solveFiles files paths = paths.map (fun path => ⟨path, s.solveFile files path⟩) ∧
    s.solveFilesParallel files paths =
      paths.map (fun path => ⟨path, s.solveFileShared files path⟩) ∧
    (s.solveFilesParallel files paths = s.solveFiles files paths ↔
      ∀ path ∈ paths, ∀ g, SentenceGraph.load files path = .ok g → ¬ s.Overtasked g) ∧
    ∀ (style : Style) (parallel : Bool),
      let t : Solver := { config := s.config }
      let os := if parallel then t.solveFilesParallel files paths else t.solveFiles files paths
      (Command.runSolve style s.config parallel files paths).failure =
        if ∀ o ∈ os, o.isOk = true then none
        else some (.someFiles (os.countP fun o => !o.isOk) paths.length) := by
  refine ⟨s.solveFiles_eq_map files paths, s.solveFilesParallel_eq_map files paths, ?_,
    fun style parallel => runSolve_failure files style s.config parallel paths⟩
  rw [solveFiles_eq_map, solveFilesParallel_eq_map, List.map_inj_left]
  refine forall₂_congr fun path _ => ?_
  rw [Outcome.mk.injEq, and_iff_right rfl, solveFileShared_eq_iff]

/-- A file with the sentence that denies itself is solved on its own, but not by rounds shared by
`2 ^ 60` tasks. -/
theorem solveFilesParallel_ne_solveFiles_liar :
    let s : Solver := ⟨{ workers := 2 ^ 60 }, .belnap⟩
    let files : Files := fun _ => .ok
      ("\x7b\"sentence\": [\x7b\"name\": \"L\", " ++
        "\"formula\": \x7b\"not\": \x7b\"ref\": \"L\"\x7d\x7d\x7d]\x7d")
    let values (o : Outcome) := (o.file, o.result.toOption.map fun sol => sol.assignment.entries)
    (s.solveFiles files ["liar.json"]).map values = [("liar.json", some [("L", .both)])] ∧
      (s.solveFilesParallel files ["liar.json"]).map values = [("liar.json", none)] ∧
      s.solveFilesParallel files ["liar.json"] ≠ s.solveFiles files ["liar.json"] := by
  intro s files values
  have halone : (s.solveFiles files ["liar.json"]).map values =
      [("liar.json", some [("L", .both)])] := by decide +kernel
  have hshared : (s.solveFilesParallel files ["liar.json"]).map values = [("liar.json", none)] := by
    decide +kernel
  refine ⟨halone, hshared, fun heq => ?_⟩
  rw [heq, halone] at hshared
  exact absurd hshared (by decide)

end SelfReference.Solver
