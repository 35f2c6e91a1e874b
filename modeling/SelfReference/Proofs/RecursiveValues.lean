import SelfReference.Proofs.GapFree

/-!
# Recursive values

What a sentence that reaches no cycle means can be found by recursion: evaluate its formula with the
meanings of the sentences that it refers to.  The recursion ends, its result is unique, and with
monotone connectives it is what either grounding solves the sentence to.  With Belnap's connectives
and settled literals it is the value of ordinary Boolean logic.
-/

namespace SelfReference

/-! ### Boolean values -/

namespace Truth

def ofBool (b : Bool) : Truth := ofEvidence b !b

/-- A value with evidence on one side only. -/
def IsSettled (v : Truth) : Prop := v = verum ∨ v = falsum

theorem IsSettled.eq_ofBool {v : Truth} (h : v.IsSettled) : v = ofBool v.toldTrue := by
  rcases h with rfl | rfl <;> rfl

theorem isSettled_ofBool (b : Bool) : (ofBool b).IsSettled := by
  cases b
  · exact Or.inr rfl
  · exact Or.inl rfl

theorem toldTrue_ofBool (b : Bool) : (ofBool b).toldTrue = b := toldTrue_ofEvidence b !b

end Truth

namespace Formula

/-- Whether a formula holds in Boolean logic, given which sentences hold. -/
def holds (v : String → Bool) : Formula → Bool
  | lit t => t.toldTrue
  | ref n => v n
  | neg f => !f.holds v
  | conj f g => f.holds v && g.holds v
  | disj f g => f.holds v || g.holds v

theorem holds_congr {v w : String → Bool} (f : Formula) (h : ∀ n ∈ f.occurrences, v n = w n) :
    f.holds v = f.holds w := by
  induction f with
  | lit t => rfl
  | ref n => exact h n (List.mem_singleton_self n)
  | neg f ih => simp only [holds, ih h]
  | conj f g ihf ihg | disj f g ihf ihg =>
    simp only [occurrences, List.mem_append] at h
    simp only [holds, ihf fun n hn => h n (Or.inl hn), ihg fun n hn => h n (Or.inr hn)]

theorem neg_ofBool (a : Bool) : Connectives.belnap.neg (.ofBool a) = .ofBool !a := by
  cases a <;> rfl

theorem conj_ofBool (a b : Bool) :
    Connectives.belnap.conj (.ofBool a) (.ofBool b) = .ofBool (a && b) := by
  cases a <;> cases b <;> rfl

theorem disj_ofBool (a b : Bool) :
    Connectives.belnap.disj (.ofBool a) (.ofBool b) = .ofBool (a || b) := by
  cases a <;> cases b <;> rfl

theorem eval_ofBool (v : String → Bool) (f : Formula) (hlit : ∀ t ∈ f.literals, t.IsSettled) :
    f.eval .belnap (fun n => .ofBool (v n)) = .ofBool (f.holds v) := by
  induction f with
  | lit t => exact (hlit t (List.mem_singleton_self t)).eq_ofBool
  | ref n => rfl
  | neg f ih => rw [eval, holds, ih hlit, neg_ofBool]
  | conj f g ihf ihg =>
    simp only [literals, List.mem_append] at hlit
    rw [eval, holds, ihf fun t ht => hlit t (Or.inl ht), ihg fun t ht => hlit t (Or.inr ht),
      conj_ofBool]
  | disj f g ihf ihg =>
    simp only [literals, List.mem_append] at hlit
    rw [eval, holds, ihf fun t ht => hlit t (Or.inl ht), ihg fun t ht => hlit t (Or.inr ht),
      disj_ofBool]

end Formula

/-! ### Meanings by recursion -/

namespace SentenceGraph

variable {α : Type} {g : SentenceGraph} {a b : String}

/-- A way to evaluate formulas gives a sentence a meaning if its formula has it, every reference
read as a meaning of the sentence that it is to. -/
inductive Means (g : SentenceGraph) (eval : (String → α) → Formula → α) : String → α → Prop
  | intro {n : String} {f : Formula} {v : String → α} (formula : g.formula? n = some f)
    (references : ∀ m ∈ f.occurrences, Means g eval m (v m)) : Means g eval n (eval v f)

theorem Means.unique {eval : (String → α) → Formula → α}
    (hcongr : ∀ v w f, (∀ n ∈ f.occurrences, v n = w n) → eval v f = eval w f) {x y : α}
    (hx : g.Means eval a x) (hy : g.Means eval a y) : x = y := by
  induction hx generalizing y with
  | intro hf _ ih =>
    obtain ⟨hf', hrefs'⟩ := hy
    obtain rfl := Option.some.inj (hf.symm.trans hf')
    exact hcongr _ _ _ fun m hm => ih m hm (hrefs' m hm)

/-- No cyclic sentence is reached from a sentence, itself included. -/
def Grounded (g : SentenceGraph) (a : String) : Prop :=
  ∀ b, Relation.ReflTransGen g.sentences.Refers a b → g.isCyclic b = false

namespace Grounded

theorem isCyclic_eq_false (h : g.Grounded a) : g.isCyclic a = false := h a .refl

theorem of_refers (h : g.Grounded a) (hab : g.sentences.Refers a b) : g.Grounded b :=
  fun c hbc => h c (.head hab hbc)

theorem induction {P : String → Prop}
    (step : ∀ n f, g.Grounded n → g.formula? n = some f → (∀ m ∈ f.occurrences, P m) → P n)
    (ha : a ∈ g.names) (h : g.Grounded a) : P a := by
  refine g.induction_below (P := fun n => g.Grounded n → P n) (fun n f hf ih hn => ?_) ha h
  refine step n f hn hf fun m hm => ?_
  have hrefers : g.sentences.Refers n m := ⟨f, hf, hm⟩
  exact ih m hrefers (shareCycle_of_not_isCyclic hn.isCyclic_eq_false m) (hn.of_refers hrefers)

end Grounded

end SentenceGraph

/-! ### Solved values -/

namespace Solver

variable {s : Solver} {g : SentenceGraph} (hmono : s.connectives.Monotone) {R : Nat}
  (hR : R ∈ s.stableAfter g g.bottom) {a : String} (ha : a ∈ g.names) (hground : g.Grounded a)
include hmono hR ha hground

theorem means_stable :
    g.Means (Formula.eval s.connectives) a ((s.afterRounds g g.bottom R).valueOf a) := by
  refine hground.induction (P := fun n => g.Means (Formula.eval s.connectives) n
    ((s.afterRounds g g.bottom R).valueOf n)) (fun n f hn hf ih => ?_) ha
  rw [valueOf_stable_of_not_isCyclic hmono hR hf hn.isCyclic_eq_false]
  exact .intro hf ih

theorem means_stable_iff (t : Truth) :
    g.Means (Formula.eval s.connectives) a t ↔ t = (s.afterRounds g g.bottom R).valueOf a := by
  have hmeans := means_stable hmono hR ha hground
  constructor
  · exact fun h => h.unique (fun _ _ f => f.eval_congr s.connectives) hmeans
  · rintro rfl
    exact hmeans

theorem means_holds_stable (hbelnap : s.connectives = .belnap)
    (hlit : g.Confined Truth.IsSettled a) :
    ((s.afterRounds g g.bottom R).valueOf a).IsSettled ∧
      g.Means Formula.holds a ((s.afterRounds g g.bottom R).valueOf a).toldTrue := by
  let x : Valuation := (s.afterRounds g g.bottom R).valueOf
  refine hground.induction (P := fun n => g.Confined Truth.IsSettled n →
    (x n).IsSettled ∧ g.Means Formula.holds n (x n).toldTrue) (fun n f hn hf ih hlit => ?_) ha hlit
  have hrefs (m : String) (hm : m ∈ f.occurrences) :
      (x m).IsSettled ∧ g.Means Formula.holds m (x m).toldTrue :=
    ih m hm (hlit.of_refers ⟨f, hf, hm⟩)
  have hvalue : x n = .ofBool (f.holds fun m => (x m).toldTrue) := by
    calc x n
        = f.eval s.connectives x :=
          valueOf_stable_of_not_isCyclic hmono hR hf hn.isCyclic_eq_false
      _ = f.eval .belnap fun m => .ofBool (x m).toldTrue := by
          rw [hbelnap]
          exact f.eval_congr _ fun m hm => (hrefs m hm).1.eq_ofBool
      _ = .ofBool (f.holds fun m => (x m).toldTrue) := f.eval_ofBool _ (hlit.literals hf)
  rw [hvalue, Truth.toldTrue_ofBool]
  exact ⟨Truth.isSettled_ofBool _, .intro hf fun m hm => (hrefs m hm).2⟩

theorem exists_means_holds_stable (hbelnap : s.connectives = .belnap)
    (hlit : g.Confined Truth.IsSettled a) :
    ∃ b, (∀ b', g.Means Formula.holds a b' ↔ b' = b) ∧
      (s.afterRounds g g.bottom R).valueOf a = .ofBool b := by
  obtain ⟨hsettled, hmeans⟩ := means_holds_stable hmono hR ha hground hbelnap hlit
  refine ⟨_, fun b' => ⟨fun h => ?_, ?_⟩, hsettled.eq_ofBool⟩
  · exact h.unique (fun _ _ f => f.holds_congr) hmeans
  · rintro rfl
    exact hmeans

end Solver

end SelfReference
