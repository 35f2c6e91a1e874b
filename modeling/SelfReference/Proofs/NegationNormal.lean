import SelfReference.Proofs.RearrangedOperands
import SelfReference.Proofs.RecursiveValues

/-!
# Evidence about formulas

Belnap's tables keep two accounts of a formula, the evidence for it and the evidence against it, and
negation exchanges them.  Both follow by recursion from the evidence about the literals and names in
the formula.  De Morgan's laws and double negation leave both accounts as they are, wherever in a
formula they are applied, so a formula has the value of its negation normal form.
-/

namespace SelfReference

namespace Connectives

theorem toldTrue_belnap_neg (a : Truth) : (belnap.neg a).toldTrue = a.toldFalse := by
  cases a <;> rfl

theorem toldFalse_belnap_neg (a : Truth) : (belnap.neg a).toldFalse = a.toldTrue := by
  cases a <;> rfl

end Connectives

namespace Formula

/-! ### Evidence by recursion -/

mutual

/-- Whether there is evidence for a formula. -/
def toldTrue (v : Valuation) : Formula → Bool
  | lit t => t.toldTrue
  | ref n => (v n).toldTrue
  | neg f => f.toldFalse v
  | conj f g => f.toldTrue v && g.toldTrue v
  | disj f g => f.toldTrue v || g.toldTrue v

/-- Whether there is evidence against a formula. -/
def toldFalse (v : Valuation) : Formula → Bool
  | lit t => t.toldFalse
  | ref n => (v n).toldFalse
  | neg f => f.toldTrue v
  | conj f g => f.toldFalse v || g.toldFalse v
  | disj f g => f.toldFalse v && g.toldFalse v

end

theorem told_eval (v : Valuation) (f : Formula) :
    (f.eval .belnap v).toldTrue = f.toldTrue v ∧
      (f.eval .belnap v).toldFalse = f.toldFalse v := by
  induction f with
  | lit t => exact ⟨rfl, rfl⟩
  | ref n => exact ⟨rfl, rfl⟩
  | neg f ih =>
    simp only [eval, toldTrue, toldFalse, Connectives.toldTrue_belnap_neg,
      Connectives.toldFalse_belnap_neg, ih, and_self]
  | conj f g ihf ihg =>
    simp only [eval, toldTrue, toldFalse, Connectives.toldTrue_belnap_conj,
      Connectives.toldFalse_belnap_conj, ihf, ihg, and_self]
  | disj f g ihf ihg =>
    simp only [eval, toldTrue, toldFalse, Connectives.toldTrue_belnap_disj,
      Connectives.toldFalse_belnap_disj, ihf, ihg, and_self]

/-- Formulas with the same evidence have the same value. -/
theorem eval_eq_of_told {f g : Formula} {v : Valuation} (ht : f.toldTrue v = g.toldTrue v)
    (hf : f.toldFalse v = g.toldFalse v) : f.eval .belnap v = g.eval .belnap v := by
  apply Truth.ext_told
  · rw [(told_eval v f).1, (told_eval v g).1, ht]
  · rw [(told_eval v f).2, (told_eval v g).2, hf]

/-! ### Pushing negations inwards -/

/-- One use of a law, at any depth: double negation goes, or a negation goes inwards by one of De
Morgan's laws. -/
inductive Pushes : Formula → Formula → Prop where
  | negNeg (f : Formula) : Pushes (neg (neg f)) f
  | negConj (f g : Formula) : Pushes (neg (conj f g)) (disj (neg f) (neg g))
  | negDisj (f g : Formula) : Pushes (neg (disj f g)) (conj (neg f) (neg g))
  | neg {f f' : Formula} (h : Pushes f f') : Pushes (neg f) (neg f')
  | conjLeft {f f' : Formula} (h : Pushes f f') (g : Formula) : Pushes (conj f g) (conj f' g)
  | conjRight (f : Formula) {g g' : Formula} (h : Pushes g g') : Pushes (conj f g) (conj f g')
  | disjLeft {f f' : Formula} (h : Pushes f f') (g : Formula) : Pushes (disj f g) (disj f' g)
  | disjRight (f : Formula) {g g' : Formula} (h : Pushes g g') : Pushes (disj f g) (disj f g')

theorem Pushes.told {f g : Formula} (h : Pushes f g) (v : Valuation) :
    g.toldTrue v = f.toldTrue v ∧ g.toldFalse v = f.toldFalse v := by
  induction h with
  | negNeg f => simp only [toldTrue, toldFalse, and_self]
  | negConj f g => simp only [toldTrue, toldFalse, and_self]
  | negDisj f g => simp only [toldTrue, toldFalse, and_self]
  | neg h ih => simp only [toldTrue, toldFalse, ih, and_self]
  | conjLeft h g ih => simp only [toldTrue, toldFalse, ih, and_self]
  | conjRight f h ih => simp only [toldTrue, toldFalse, ih, and_self]
  | disjLeft h g ih => simp only [toldTrue, toldFalse, ih, and_self]
  | disjRight f h ih => simp only [toldTrue, toldFalse, ih, and_self]

theorem eval_eq_of_pushes {f g : Formula} (h : Relation.ReflTransGen Pushes f g) (v : Valuation) :
    g.eval .belnap v = f.eval .belnap v := by
  induction h with
  | refl => rfl
  | tail _ hstep ih =>
    have htold := hstep.told v
    rw [eval_eq_of_told htold.1 htold.2, ih]

/-! ### Negation normal form -/

/-- Negations stand before literals and references only. -/
def IsNegationNormal : Formula → Prop
  | lit _ | ref _ | neg (lit _) | neg (ref _) => True
  | neg (neg _) | neg (conj _ _) | neg (disj _ _) => False
  | conj f g | disj f g => f.IsNegationNormal ∧ g.IsNegationNormal

/-- A formula, or where `negated` its negation, with all negations pushed down to literals and
references. -/
def pushed : Bool → Formula → Formula
  | false, lit t => lit t
  | true, lit t => neg (lit t)
  | false, ref n => ref n
  | true, ref n => neg (ref n)
  | negated, neg f => pushed (!negated) f
  | false, conj f g => conj (pushed false f) (pushed false g)
  | true, conj f g => disj (pushed true f) (pushed true g)
  | false, disj f g => disj (pushed false f) (pushed false g)
  | true, disj f g => conj (pushed true f) (pushed true g)

def negationNormal (f : Formula) : Formula := pushed false f

theorem isNegationNormal_pushed (negated : Bool) (f : Formula) :
    (pushed negated f).IsNegationNormal := by
  induction f generalizing negated with
  | lit t => cases negated <;> simp [pushed, IsNegationNormal]
  | ref n => cases negated <;> simp [pushed, IsNegationNormal]
  | neg f ih => rw [pushed]; exact ih _
  | conj f g ihf ihg => cases negated <;> simp [pushed, IsNegationNormal, ihf, ihg]
  | disj f g ihf ihg => cases negated <;> simp [pushed, IsNegationNormal, ihf, ihg]

section Congruence

variable {f f' g g' : Formula} (hf : Relation.ReflTransGen Pushes f f')
  (hg : Relation.ReflTransGen Pushes g g')
include hf hg

theorem pushes_conj : Relation.ReflTransGen Pushes (conj f g) (conj f' g') :=
  .trans (hf.lift (conj · g) fun _ _ h => .conjLeft h g)
    (hg.lift (conj f' ·) fun _ _ h => .conjRight f' h)

theorem pushes_disj : Relation.ReflTransGen Pushes (disj f g) (disj f' g') :=
  .trans (hf.lift (disj · g) fun _ _ h => .disjLeft h g)
    (hg.lift (disj f' ·) fun _ _ h => .disjRight f' h)

end Congruence

/-- The laws lead to the normal form, of a formula and of its negation. -/
theorem pushes_pushed (f : Formula) :
    Relation.ReflTransGen Pushes f (pushed false f) ∧
      Relation.ReflTransGen Pushes (neg f) (pushed true f) := by
  induction f with
  | lit t => exact ⟨.refl, .refl⟩
  | ref n => exact ⟨.refl, .refl⟩
  | neg f ih => exact ⟨ih.2, .head (.negNeg f) ih.1⟩
  | conj f g ihf ihg =>
    exact ⟨pushes_conj ihf.1 ihg.1, .head (.negConj f g) (pushes_disj ihf.2 ihg.2)⟩
  | disj f g ihf ihg =>
    exact ⟨pushes_disj ihf.1 ihg.1, .head (.negDisj f g) (pushes_conj ihf.2 ihg.2)⟩

theorem Pushes.pushed_eq {f g : Formula} (h : Pushes f g) (negated : Bool) :
    pushed negated g = pushed negated f := by
  induction h generalizing negated with
  | negNeg f => simp only [pushed, Bool.not_not]
  | negConj f g => cases negated <;> simp only [pushed, Bool.not_true, Bool.not_false]
  | negDisj f g => cases negated <;> simp only [pushed, Bool.not_true, Bool.not_false]
  | neg h ih => simp only [pushed, ih]
  | conjLeft h g ih => cases negated <;> simp only [pushed, ih]
  | conjRight f h ih => cases negated <;> simp only [pushed, ih]
  | disjLeft h g ih => cases negated <;> simp only [pushed, ih]
  | disjRight f h ih => cases negated <;> simp only [pushed, ih]

theorem negationNormal_eq_self {f : Formula} (h : f.IsNegationNormal) : f.negationNormal = f := by
  rw [negationNormal]
  induction f with
  | lit t => rfl
  | ref n => rfl
  | neg f ih =>
    cases f with
    | lit t => rfl
    | ref n => rfl
    | neg f => exact absurd h id
    | conj f g => exact absurd h id
    | disj f g => exact absurd h id
  | conj f g ihf ihg => rw [pushed, ihf h.1, ihg h.2]
  | disj f g ihf ihg => rw [pushed, ihf h.1, ihg h.2]

theorem negationNormal_eq_of_pushes {f g : Formula} (h : Relation.ReflTransGen Pushes f g) :
    g.negationNormal = f.negationNormal := by
  induction h with
  | refl => rfl
  | tail _ hstep ih => exact (hstep.pushed_eq false).trans ih

/-- However the laws are applied, they lead to one normal form only. -/
theorem eq_negationNormal {f g : Formula} (h : Relation.ReflTransGen Pushes f g)
    (hg : g.IsNegationNormal) : g = f.negationNormal := by
  rw [← negationNormal_eq_of_pushes h, negationNormal_eq_self hg]

/-! ### The value of a formula -/

/-- A formula is told true and told false by the evidence about its parts.  So its value stays the
same wherever De Morgan's laws and double negation are applied, down to the one normal form that
they lead to; and where its literals and the values of its names are settled, it is the value of
Boolean logic. -/
theorem eval_belnap_eq_evidence (f : Formula) :
    (∀ v, (f.eval .belnap v).toldTrue = f.toldTrue v ∧
      (f.eval .belnap v).toldFalse = f.toldFalse v) ∧
    (∀ g, Relation.ReflTransGen Pushes f g → ∀ v, g.eval .belnap v = f.eval .belnap v) ∧
    (∀ g, Relation.ReflTransGen Pushes f g ∧ g.IsNegationNormal ↔ g = f.negationNormal) ∧
    ∀ v : Valuation, (∀ t ∈ f.literals, t.IsSettled) → (∀ n ∈ f.occurrences, (v n).IsSettled) →
      f.eval .belnap v = .ofBool (f.holds fun n => (v n).toldTrue) := by
  refine ⟨fun v => told_eval v f, fun g h v => eval_eq_of_pushes h v, fun g => ?_,
    fun v hlit hname => ?_⟩
  · constructor
    · intro h
      exact eq_negationNormal h.1 h.2
    · intro h
      rw [h]
      exact ⟨(pushes_pushed f).1, isNegationNormal_pushed false f⟩
  · calc f.eval .belnap v
        = f.eval .belnap fun n => .ofBool (v n).toldTrue :=
          f.eval_congr _ fun n hn => (hname n hn).eq_ofBool
      _ = .ofBool (f.holds fun n => (v n).toldTrue) := f.eval_ofBool _ hlit

end Formula

end SelfReference
