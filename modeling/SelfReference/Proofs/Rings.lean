import Mathlib.Algebra.Group.Fin.Basic
import Mathlib.Data.Fintype.EquivFin
import Mathlib.Data.Fintype.Lattice
import SelfReference.Proofs.ClosedWorld
import SelfReference.Proofs.DefinitionOrder
import SelfReference.Proofs.ReachedLiterals

/-!
# Rings of sentences

In a ring every sentence affirms or denies the sentence before it.  Read with a closed world, the
first round makes every denial true and every affirmation false.  A sentence that follows a denial
then contradicts itself, and the contradiction travels round the ring, one sentence a round.  So a
ring without a denial is false, and a ring with one is contradictory throughout, however many
denials there are.
-/

namespace SelfReference

/-- Finitely many sentences in a circle, each of which affirms or denies the sentence before it. -/
structure SentenceRing (n : Nat) where
  name : Fin (n + 1) → String
  denies : Fin (n + 1) → Bool
  named : ∀ i, Text.isBlank (name i) = false
  name_injective : Function.Injective name

namespace SentenceRing

variable {n : Nat} (r : SentenceRing n)

/-! ### The circle -/

/-- The place so many steps before a place. -/
def upstream (d : Nat) (i : Fin (n + 1)) : Fin (n + 1) := (· - 1)^[d] i

theorem upstream_succ (d : Nat) (i : Fin (n + 1)) : upstream (d + 1) i = upstream d i - 1 :=
  Function.iterate_succ_apply' ..

/-- Going back from any place of a circle one comes to every place. -/
theorem of_pred {P : Fin (n + 1) → Prop} (hP : ∀ j, P j → P (j - 1)) {i : Fin (n + 1)} (hi : P i)
    (j : Fin (n + 1)) : P j := by
  have hback (k : Fin n) (h : P k.succ) : P k.castSucc := by
    have hpred := hP _ h
    rwa [← Fin.coeSucc_eq_succ, add_sub_cancel_right] at hpred
  have hzero : P 0 := by
    induction i using Fin.induction with
    | zero => exact hi
    | succ k ih => exact ih (hback k hi)
  -- from the first place one comes to the last one, and from there to all the others
  induction j using Fin.reverseInduction with
  | last =>
    have hpred := hP 0 hzero
    rwa [← Fin.last_add_one, add_sub_cancel_right] at hpred
  | cast k ih => exact hback k ih

theorem exists_upstream (i j : Fin (n + 1)) : ∃ d, 1 ≤ d ∧ upstream d i = j := by
  refine of_pred (P := fun j => ∃ d, 1 ≤ d ∧ upstream d i = j) ?_ ⟨1, le_rfl, rfl⟩ j
  rintro j ⟨d, hd, rfl⟩
  exact ⟨d + 1, by omega, upstream_succ d i⟩

/-! ### Its graph -/

/-- What a sentence says about the one before it. -/
def formula (i : Fin (n + 1)) : Formula :=
  if r.denies i then .neg (.ref (r.name (i - 1))) else .ref (r.name (i - 1))

theorem occurrences_formula (i : Fin (n + 1)) : (r.formula i).occurrences = [r.name (i - 1)] := by
  unfold formula
  cases r.denies i <;> rfl

def definitions : List (String × Formula) := List.ofFn fun i => (r.name i, r.formula i)

theorem map_fst_definitions : r.definitions.map (·.1) = List.ofFn r.name := by
  rw [definitions, List.map_ofFn]
  rfl

theorem mem_definitions (i : Fin (n + 1)) : (r.name i, r.formula i) ∈ r.definitions :=
  List.mem_ofFn.2 ⟨i, rfl⟩

theorem exists_graph : ∃ g, SentenceGraph.ofDefinitions r.definitions = .ok g := by
  refine SentenceGraph.exists_ofDefinitions_iff.2 ⟨fun d hd => ?_, ?_, fun d hd m hm => ?_⟩
  · obtain ⟨i, rfl⟩ := List.mem_ofFn.1 hd
    exact r.named i
  · rw [map_fst_definitions]
    exact List.nodup_ofFn.2 r.name_injective
  · obtain ⟨i, rfl⟩ := List.mem_ofFn.1 hd
    rw [occurrences_formula, List.mem_singleton] at hm
    rw [map_fst_definitions, hm]
    exact List.mem_ofFn.2 ⟨i - 1, rfl⟩

section Graph

variable {r} {g : SentenceGraph} (hg : SentenceGraph.ofDefinitions r.definitions = .ok g)
include hg

theorem formula?_name (i : Fin (n + 1)) : g.formula? (r.name i) = some (r.formula i) :=
  (SentenceGraph.formula?_eq_some_iff hg).2 (r.mem_definitions i)

theorem mem_names_iff {m : String} : m ∈ g.names ↔ ∃ i, r.name i = m := by
  rw [SentenceGraph.mem_names_ofDefinitions hg, map_fst_definitions, List.mem_ofFn]

theorem size_ne_zero : g.size ≠ 0 := by
  intro hsize
  have hmem : r.name 0 ∈ g.names := (mem_names_iff hg).2 ⟨0, rfl⟩
  rw [g.names_eq_nil hsize] at hmem
  exact List.not_mem_nil hmem

theorem dependsOn (i j : Fin (n + 1)) : g.DependsOn (r.name i) (r.name j) := by
  have hrefers (k : Fin (n + 1)) : g.sentences.Refers (r.name k) (r.name (k - 1)) := by
    rw [SentenceGraph.refers_eq_refersIn hg]
    exact ⟨_, r.mem_definitions k, by simp [occurrences_formula]⟩
  exact of_pred (P := fun j => g.DependsOn (r.name i) (r.name j))
    (fun k h => h.tail (hrefers k)) (.single (hrefers i)) j

theorem shareCycle (i j : Fin (n + 1)) : g.shareCycle (r.name i) (r.name j) = true :=
  SentenceGraph.shareCycle_iff.2 ⟨dependsOn hg i j, dependsOn hg j i⟩

theorem ext_afterRounds {s : Solver} {j k : Nat}
    (h : ∀ i, (s.afterRounds g g.bottom j).valueOf (r.name i) =
      (s.afterRounds g g.bottom k).valueOf (r.name i)) :
    s.afterRounds g g.bottom j = s.afterRounds g g.bottom k := by
  refine s.afterRounds_ext g.names_bottom fun m hm => ?_
  obtain ⟨i, rfl⟩ := (mem_names_iff hg).1 hm
  exact h i

end Graph

/-! ### Its rounds -/

/-- What a sentence says if the one before it reads as a value. -/
def verdict (i : Fin (n + 1)) (v : Truth) : Truth :=
  if r.denies i then Connectives.belnapNeg v else v

theorem eval_formula (i : Fin (n + 1)) (ρ : Valuation) :
    (r.formula i).eval .belnap ρ = r.verdict i (ρ (r.name (i - 1))) := by
  unfold formula verdict
  cases r.denies i <;> rfl

/-- How many steps before a place there are denials. -/
def denialsBefore (i : Fin (n + 1)) : Set Nat := {d | 1 ≤ d ∧ r.denies (upstream d i) = true}

/-- Whether there is a denial within so many steps before a place. -/
def hears : Nat → Fin (n + 1) → Bool
  | 0, _ => false
  | k + 1, i => r.denies (i - 1) || hears k (i - 1)

theorem hears_iff {k : Nat} {i : Fin (n + 1)} :
    r.hears k i = true ↔ ∃ d ∈ r.denialsBefore i, d ≤ k := by
  induction k generalizing i with
  | zero =>
    refine iff_of_false Bool.false_ne_true ?_
    rintro ⟨d, ⟨hd, -⟩, hk⟩
    omega
  | succ k ih =>
    rw [hears, Bool.or_eq_true, ih]
    constructor
    · rintro (h | ⟨d, ⟨hd, h⟩, hk⟩)
      · exact ⟨1, ⟨le_rfl, h⟩, by omega⟩
      · exact ⟨d + 1, ⟨by omega, h⟩, by omega⟩
    · rintro ⟨d, ⟨hd, h⟩, hk⟩
      obtain ⟨d, rfl⟩ := Nat.exists_eq_add_of_le' hd
      cases d with
      | zero => exact Or.inl h
      | succ d => exact Or.inr ⟨d + 1, ⟨by omega, h⟩, by omega⟩

theorem hears_of_le {j k : Nat} (hjk : j ≤ k) {i : Fin (n + 1)} (h : r.hears j i = true) :
    r.hears k i = true := by
  obtain ⟨d, hd, hj⟩ := r.hears_iff.1 h
  exact r.hears_iff.2 ⟨d, hd, hj.trans hjk⟩

theorem hears_of_affirms (haffirms : ∀ i, r.denies i = false) (k : Nat) (i : Fin (n + 1)) :
    r.hears k i = false := by
  refine Bool.eq_false_iff.2 fun h => ?_
  obtain ⟨d, ⟨-, hdenies⟩, -⟩ := r.hears_iff.1 h
  rw [haffirms] at hdenies
  exact Bool.noConfusion hdenies

/-- With a denial in the ring there is a first one before every place, and a place at which the way
to it is the longest; within that many steps every place hears of one. -/
theorem exists_far (hdenies : ∃ j, r.denies j = true) :
    ∃ far, IsGreatest {d | ∃ i, IsLeast (r.denialsBefore i) d} far ∧
      ∀ i, r.hears far i = true := by
  obtain ⟨j, hj⟩ := hdenies
  have hfirst (i : Fin (n + 1)) : ∃ d, IsLeast (r.denialsBefore i) d := by
    obtain ⟨d, hd, rfl⟩ := exists_upstream i j
    classical
    exact ⟨_, Set.Nonempty.isLeast_natFind (s := r.denialsBefore i) ⟨d, hd, hj⟩⟩
  choose first hfirst using hfirst
  obtain ⟨i, hmax⟩ := Finite.exists_max first
  refine ⟨first i, ⟨⟨i, hfirst i⟩, ?_⟩, fun k => r.hears_iff.2 ⟨first k, (hfirst k).1, hmax k⟩⟩
  rintro d ⟨k, hk⟩
  exact hk.unique (hfirst k) ▸ hmax k

/-- The value of a sentence one round after it has heard of the denials within so many steps. -/
def value (k : Nat) (i : Fin (n + 1)) : Truth :=
  if r.hears k i then .both else r.verdict i .falsum

theorem value_ne_neither (k : Nat) (i : Fin (n + 1)) : r.value k i ≠ .neither := by
  unfold value verdict
  cases r.hears k i <;> cases r.denies i <;> decide

theorem value_eq_both_iff {k : Nat} {i : Fin (n + 1)} :
    r.value k i = .both ↔ r.hears k i = true := by
  unfold value verdict
  cases r.hears k i <;> cases r.denies i <;> decide

theorem value_of_affirms (haffirms : ∀ i, r.denies i = false) (k : Nat) (i : Fin (n + 1)) :
    r.value k i = .falsum := by
  unfold value verdict
  rw [r.hears_of_affirms haffirms, haffirms]
  rfl

/-- A sentence next to a denial contradicts itself in the next round, and so does a sentence next
to one that contradicts itself; all others repeat what they say. -/
theorem join_verdict (k : Nat) (i : Fin (n + 1)) :
    (r.value k i).join (r.verdict i (r.value k (i - 1))) = r.value (k + 1) i := by
  have hmono : r.hears k i = true → r.hears (k + 1) i = true := r.hears_of_le (Nat.le_succ k)
  rw [hears] at hmono
  unfold value verdict
  rw [hears]
  cases hi : r.hears k i with
  | true =>
    rw [if_pos (hmono hi)]
    cases r.denies i <;> cases r.denies (i - 1) <;> cases r.hears k (i - 1) <;> rfl
  | false =>
    cases r.denies i <;> cases r.denies (i - 1) <;> cases r.hears k (i - 1) <;> rfl

section ClosedWorld

variable {r} {g : SentenceGraph} (hg : SentenceGraph.ofDefinitions r.definitions = .ok g)
  {c : SolverConfig} (hground : c.grounding = .closedWorld)
include hg hground

theorem valueOf_step (i : Fin (n + 1)) (a : Assignment) :
    ((⟨c, .belnap⟩ : Solver).step g a).next.valueOf (r.name i) =
      (a.valueOf (r.name i)).join (r.verdict i (a.closed (r.name (i - 1)))) := by
  rw [Solver.valueOf_step _ (formula?_name hg i), eval_formula, Solver.reading, hground]
  simp only [Solver.cycleClosed, shareCycle hg, if_true]

/-- After the first round a sentence is contradictory if it has heard of a denial, and otherwise
true if it denies and false if it affirms. -/
theorem valueOf_afterRounds (k : Nat) (i : Fin (n + 1)) :
    ((⟨c, .belnap⟩ : Solver).afterRounds g g.bottom (k + 1)).valueOf (r.name i) =
      r.value k i := by
  induction k generalizing i with
  | zero =>
    rw [Solver.afterRounds_succ, valueOf_step hg hground]
    show (g.bottom.valueOf _).join (r.verdict i (g.bottom.closed _)) = r.verdict i .falsum
    rw [Assignment.closed, g.valueOf_bottom, g.valueOf_bottom]
    exact Truth.join_eq_right_iff.2 (Truth.neither_le _)
  | succ k ih =>
    have hprev := ih (i - 1)
    have hclosed := Assignment.closed_eq_valueOf (hprev ▸ r.value_ne_neither k (i - 1))
    rw [Solver.afterRounds_succ, valueOf_step hg hground, ih, hclosed, hprev]
    exact r.join_verdict k i

/-- Without a denial the second round is the first one to change nothing. -/
theorem isLeast_of_affirms (haffirms : ∀ i, r.denies i = false) :
    IsLeast ((⟨c, .belnap⟩ : Solver).stableAfter g g.bottom) 2 := by
  have hvalue (k : Nat) (i : Fin (n + 1)) : r.value k i = .falsum := r.value_of_affirms haffirms k i
  refine Solver.isLeast_stableAfter _ (ext_afterRounds hg fun i => ?_) fun heq => ?_
  · rw [valueOf_afterRounds hg hground, valueOf_afterRounds hg hground, hvalue, hvalue]
  · have hfirst := valueOf_afterRounds hg hground 0 0
    rw [heq, hvalue] at hfirst
    exact Truth.noConfusion ((g.valueOf_bottom _).symm.trans hfirst)

/-- The last round to change something is the one in which the sentence farthest from a denial
contradicts itself. -/
theorem isLeast_of_denies {far : Nat}
    (hfar : IsGreatest {d | ∃ i, IsLeast (r.denialsBefore i) d} far)
    (hall : ∀ i, r.hears far i = true) :
    IsLeast ((⟨c, .belnap⟩ : Solver).stableAfter g g.bottom) (far + 2) := by
  obtain ⟨i, hi⟩ := hfar.1
  refine Solver.isLeast_stableAfter _ (ext_afterRounds hg fun i => ?_) fun heq => ?_
  · have hnext := r.hears_of_le (Nat.le_succ far) (hall i)
    rw [valueOf_afterRounds hg hground, valueOf_afterRounds hg hground,
      r.value_eq_both_iff.2 (hall i), r.value_eq_both_iff.2 hnext]
  · obtain ⟨k, rfl⟩ := Nat.exists_eq_add_of_le' hi.1.1
    have hboth := valueOf_afterRounds hg hground (k + 1) i
    rw [heq, valueOf_afterRounds hg hground, r.value_eq_both_iff.2 (hall i),
      r.value_eq_both_iff] at hboth
    obtain ⟨d, hd, hk⟩ := r.hears_iff.1 hboth
    have hle := hi.2 hd
    omega

end ClosedWorld

/-- Under open grounding a ring says nothing. -/
theorem afterRounds_one_open {r : SentenceRing n} {g : SentenceGraph}
    (hg : SentenceGraph.ofDefinitions r.definitions = .ok g) {c : SolverConfig}
    (hground : c.grounding = .openWorld) :
    (⟨c, .belnap⟩ : Solver).afterRounds g g.bottom 1 = g.bottom := by
  refine ext_afterRounds hg (j := 1) (k := 0) fun i => ?_
  rw [Solver.afterRounds_succ, Solver.valueOf_step _ (formula?_name hg i), eval_formula,
    Solver.reading, hground]
  show (g.bottom.valueOf _).join (r.verdict i (g.bottom.valueOf _)) = g.bottom.valueOf _
  rw [g.valueOf_bottom, g.valueOf_bottom]
  unfold verdict
  cases r.denies i <;> rfl

/-- A ring is solved to false everywhere in two rounds if all its sentences affirm, and otherwise to
contradiction everywhere, in two rounds more than there are steps back to the next denial from where
it is farthest.  Under open grounding one round leaves it without a value. -/
theorem solve_settles (r : SentenceRing n) :
    ∃ g, (∀ ds, ds.Perm r.definitions → SentenceGraph.ofDefinitions ds = .ok g) ∧
      ∀ c : SolverConfig, c.maxIterations = none →
        ∃ sol, (⟨c, .belnap⟩ : Solver).solve g = .ok sol ∧
          (c.grounding = .closedWorld → (∀ i, r.denies i = false) →
            sol.rounds = 2 ∧ ∀ i, sol.assignment.get? (r.name i) = some .falsum) ∧
          (c.grounding = .closedWorld → (∃ i, r.denies i = true) →
            ∃ far, IsGreatest {d | ∃ i, IsLeast (r.denialsBefore i) d} far ∧
              sol.rounds = far + 2 ∧ ∀ i, sol.assignment.get? (r.name i) = some .both) ∧
          (c.grounding = .openWorld →
            sol.rounds = 1 ∧ ∀ i, sol.assignment.get? (r.name i) = some .neither) := by
  obtain ⟨g, hg⟩ := r.exists_graph
  refine ⟨g, fun ds hperm => SentenceGraph.ofDefinitions_of_perm hperm.symm hg, fun c hbound => ?_⟩
  obtain ⟨R, sol, hR, hsolve, hassign, hrounds⟩ := Solver.exists_solution_rounds
    (s := ⟨c, .belnap⟩) (Solver.verify_of_belnap rfl) hbound g
  rw [if_neg (size_ne_zero hg)] at hrounds
  have hget (i : Fin (n + 1)) :
      sol.assignment.get? (r.name i) = some (sol.assignment.valueOf (r.name i)) := by
    refine Assignment.get?_eq_some_valueOf ?_
    rw [hassign, Solver.names_afterRounds _ g.names_bottom]
    exact (mem_names_iff hg).2 ⟨i, rfl⟩
  refine ⟨sol, hsolve, fun hground haffirms => ?_, fun hground hdenies => ?_, fun hground => ?_⟩
  · have hR2 : R = 2 := hR.unique (isLeast_of_affirms hg hground haffirms)
    refine ⟨hrounds.trans hR2, fun i => ?_⟩
    rw [hget, hassign, hR2, valueOf_afterRounds hg hground, r.value_of_affirms haffirms]
  · obtain ⟨far, hfar, hall⟩ := r.exists_far hdenies
    have hRfar : R = far + 2 := hR.unique (isLeast_of_denies hg hground hfar hall)
    refine ⟨far, hfar, hrounds.trans hRfar, fun i => ?_⟩
    rw [hget, hassign, hRfar, valueOf_afterRounds hg hground]
    exact congrArg some (r.value_eq_both_iff.2 (r.hears_of_le (Nat.le_succ far) (hall i)))
  · have hbottom := afterRounds_one_open hg hground
    have hR1 : R = 1 := hR.unique ⟨⟨le_rfl, hbottom⟩, fun _ hr => hr.1⟩
    refine ⟨hrounds.trans hR1, fun i => ?_⟩
    rw [hget, hassign, hR1, hbottom, g.valueOf_bottom]

/-- Three sentences, two of which deny. -/
def twoDenials : SentenceRing 2 where
  name i := ["a", "b", "c"].get i
  denies i := i ≠ 2
  named := by decide
  name_injective i j := by revert i j; decide

/-- An even number of denials is no way out: the second sentence is next to a denial, the first one
two steps behind one. -/
theorem solve_settles_twoDenials :
    ∃ g sol, SentenceGraph.ofDefinitions
        [("a", .neg (.ref "c")), ("b", .neg (.ref "a")), ("c", .ref "b")] = .ok g ∧
      ({} : Solver).solve g = .ok sol ∧ sol.rounds = 4 ∧
      ∀ i, sol.assignment.get? (twoDenials.name i) = some .both := by
  obtain ⟨g, hg, hsettles⟩ := solve_settles twoDenials
  obtain ⟨sol, hsolve, -, hdenial, -⟩ := hsettles {} rfl
  obtain ⟨far, hfar, hrounds, hboth⟩ := hdenial rfl ⟨0, rfl⟩
  have hnear (i : Fin 3) : ∃ d ∈ twoDenials.denialsBefore i, d ≤ 2 := by
    rw [← hears_iff]
    revert i
    decide
  have hfirst : IsLeast (twoDenials.denialsBefore 0) 2 := by
    refine ⟨⟨by decide, rfl⟩, fun d hd => ?_⟩
    by_contra hlt
    have hone : twoDenials.hears 1 0 = true := hears_iff _ |>.2 ⟨d, hd, by omega⟩
    exact absurd hone (by decide)
  have htwo : IsGreatest {d | ∃ i, IsLeast (twoDenials.denialsBefore i) d} 2 := by
    refine ⟨⟨0, hfirst⟩, ?_⟩
    rintro d ⟨i, hd⟩
    obtain ⟨e, he, hle⟩ := hnear i
    exact (hd.2 he).trans hle
  refine ⟨g, sol, hg _ (.of_eq rfl), hsolve, ?_, hboth⟩
  rw [hrounds, hfar.unique htwo]

end SentenceRing

end SelfReference
