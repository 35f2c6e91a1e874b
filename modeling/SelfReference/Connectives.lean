import SelfReference.Truth

/-!
# Connectives

Negation, conjunction and disjunction as a record of truth functions, so that a formula can be
evaluated under any tables.  Belnap's tables are the standard choice.  `violations` lists every
place where given tables break the information order; it is empty exactly for monotone ones.
-/

namespace SelfReference

structure Connectives where
  neg : Truth → Truth
  conj : Truth → Truth → Truth
  disj : Truth → Truth → Truth

namespace Connectives

open Truth

/-- Disjunction as the De Morgan dual of a conjunction under a negation. -/
def deMorgan (neg : Truth → Truth) (conj : Truth → Truth → Truth) (a b : Truth) : Truth :=
  neg (conj (neg a) (neg b))

def dual (neg : Truth → Truth) (conj : Truth → Truth → Truth) : Connectives :=
  ⟨neg, conj, deMorgan neg conj⟩

/-! ### Belnap's tables -/

/-- Exchanges told true and told false. -/
def belnapNeg : Truth → Truth
  | verum => falsum
  | falsum => verum
  | both => both
  | neither => neither

/-- The greatest value below both operands in the order of truth. -/
def belnapConj : Truth → Truth → Truth
  | verum, b => b
  | falsum, _ => falsum
  | both, verum => both
  | both, falsum => falsum
  | both, both => both
  | both, neither => falsum
  | neither, verum => neither
  | neither, falsum => falsum
  | neither, both => falsum
  | neither, neither => neither

def belnap : Connectives := dual belnapNeg belnapConj

/-! ### Monotonicity -/

/-- A place where a connective breaks the information order. -/
inductive Violation where
  /-- More evidence about the operand takes evidence from its negation. -/
  | negation (lower upper : Truth)
  /-- The same for a conjunction, in one operand or the other, beside `other`. -/
  | conjunction (lower upper other : Truth)
  /-- The same for a disjunction. -/
  | disjunction (lower upper other : Truth)
  deriving DecidableEq

def Violation.message : Violation → String
  | .negation l u => s!"negation is not monotone from {l} to {u}"
  | .conjunction l u o => s!"conjunction with {o} is not monotone from {l} to {u}"
  | .disjunction l u o => s!"disjunction with {o} is not monotone from {l} to {u}"

/-- A binary connective keeps `lower ≤ upper` in either operand beside `other`. -/
def keepsBeside (op : Truth → Truth → Truth) (lower upper other : Truth) : Bool :=
  (op lower other).leq (op upper other) && (op other lower).leq (op other upper)

/-- The violations at one pair `lower ≤ upper`: negation first, then both binary connectives
beside each value. -/
def violationsAt (c : Connectives) (lower upper : Truth) : List Violation :=
  (if (c.neg lower).leq (c.neg upper) then [] else [.negation lower upper]) ++
  Truth.all.flatMap fun other =>
    (if keepsBeside c.conj lower upper other then [] else [.conjunction lower upper other]) ++
    (if keepsBeside c.disj lower upper other then [] else [.disjunction lower upper other])

/-- Every violation, by `lower`, then by `upper`. -/
def violations (c : Connectives) : List Violation :=
  Truth.all.flatMap fun lower =>
    (Truth.all.filter lower.leq).flatMap fun upper => c.violationsAt lower upper

/-- Every connective keeps the information order in every operand. -/
structure Monotone (c : Connectives) : Prop where
  neg : ∀ a b, a ≤ b → c.neg a ≤ c.neg b
  conj : ∀ a b a' b', a ≤ b → a' ≤ b' → c.conj a a' ≤ c.conj b b'
  disj : ∀ a b a' b', a ≤ b → a' ≤ b' → c.disj a a' ≤ c.disj b b'

end Connectives

end SelfReference
