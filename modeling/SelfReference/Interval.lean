import SelfReference.Assignment

/-!
# Confidence intervals

A truth value is projected onto a closed interval within the unit interval: settled values onto a
point, a contested value onto the whole.  No evidence counts as evidence against.
-/

namespace SelfReference

structure Interval where
  lower : Float
  upper : Float

namespace Interval

/-- Settled true. -/
def certain : Interval := ⟨1, 1⟩

/-- Settled false. -/
def impossible : Interval := ⟨0, 0⟩

/-- Fully contested. -/
def unit : Interval := ⟨0, 1⟩

/-- What is wrong with the bounds of an interval. -/
inductive BoundsError where
  | lowerOutside
  | upperOutside
  | crossed

/-- How wrong bounds are reported. -/
def BoundsError.message : BoundsError → String
  | lowerOutside => "Lower bound must be in [0, 1]"
  | upperOutside => "Upper bound must be in [0, 1]"
  | crossed => "Lower bound must be <= upper bound"

/-- The interval between two bounds within the unit interval, the lower one first. -/
def between? (lower upper : Float) : Except BoundsError Interval :=
  if !(0 ≤ lower && lower ≤ 1) then .error .lowerOutside
  else if !(0 ≤ upper && upper ≤ 1) then .error .upperOutside
  else if !(lower ≤ upper) then .error .crossed
  else .ok ⟨lower, upper⟩

def midpoint (i : Interval) : Float := (i.lower + i.upper) / 2

/-- The distance of the bounds. -/
def width (i : Interval) : Float := i.upper - i.lower

/-- Whether a point lies within the bounds. -/
def contains (i : Interval) (x : Float) : Bool := i.lower ≤ x && x ≤ i.upper

/-- Bounds that compare equal. -/
def sameBounds (i j : Interval) : Bool := i.lower == j.lower && i.upper == j.upper

/-- The smaller number, the first of equal ones; the other one where one is not a number. -/
def smaller (x y : Float) : Float := if y < x || x.isNaN then y else x

/-- The larger number, the first of equal ones; the other one where one is not a number. -/
def larger (x y : Float) : Float := if x < y || x.isNaN then y else x

/-- The smallest interval around both. -/
def hull (i j : Interval) : Interval := ⟨smaller i.lower j.lower, larger i.upper j.upper⟩

end Interval

/-- The interval that a truth value is projected onto. -/
def Truth.interval : Truth → Interval
  | verum => .certain
  | falsum => .impossible
  | both => .unit
  | neither => .impossible

abbrev Projection := NameMap Interval

def Assignment.project (a : Assignment) : Projection := a.map fun _ v => v.interval

/-- The smallest interval around all, if there is one. -/
def Projection.hull (p : Projection) : Option Interval :=
  match p.values with
  | [] => none
  | i :: is => some (is.foldl Interval.hull i)

end SelfReference
