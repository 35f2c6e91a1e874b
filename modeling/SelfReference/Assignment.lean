import SelfReference.Formula

/-!
# Assignments

A snapshot of what is known about finitely many sentences.  A name that a snapshot does not cover
reads as `neither`; the order, the join and every evaluation use that reading, so they do not
distinguish a missing name from one without evidence.
-/

namespace SelfReference

abbrev Assignment := NameMap Truth

namespace Assignment

/-- The value of a name, `neither` where it is not covered. -/
def valueOf (a : Assignment) (name : String) : Truth := (a.get? name).getD .neither

/-- The reading that takes missing evidence for evidence against. -/
def closed (a : Assignment) : Valuation := fun name =>
  match a.valueOf name with
  | .neither => .falsum
  | v => v

/-- Every listed name without evidence. -/
def bottom (names : List String) : Assignment := NameMap.tabulate names fun _ => .neither

/-- Each value of `a` is below the value of the same name in `b`. -/
def leq (a b : Assignment) : Bool := a.entries.all fun e => e.2.leq (b.valueOf e.1)

/-- The names of both, each with the evidence of both. -/
def join (a b : Assignment) : Assignment :=
  NameMap.tabulate (a.names ++ b.names) fun n => (a.valueOf n).join (b.valueOf n)

/-- The names of `a` that `b` does not cover or gives another value, in ascending order. -/
def changedSince (a b : Assignment) : List String :=
  (a.entries.filter fun e => b.get? e.1 ≠ some e.2).map (·.1)

def count (a : Assignment) (v : Truth) : Nat := a.values.count v

@[simp] theorem valueOf_bottom (names : List String) (n : String) :
    (bottom names).valueOf n = .neither := by
  unfold valueOf bottom
  rw [NameMap.get?_tabulate]
  split <;> rfl

theorem valueOf_join (a b : Assignment) (n : String) :
    (a.join b).valueOf n = (a.valueOf n).join (b.valueOf n) := by
  have hmiss (m : Assignment) (h : n ∉ m.names) : m.valueOf n = .neither := by
    unfold valueOf
    cases hg : m.get? n with
    | none => rfl
    | some x => exact absurd (m.mem_names_iff.2 ⟨x, hg⟩) h
  conv => lhs; unfold valueOf join
  rw [NameMap.get?_tabulate]
  split
  · rfl
  · rename_i h
    rw [List.mem_append, not_or] at h
    rw [hmiss a h.1, hmiss b h.2]
    rfl

theorem mem_names_join (a b : Assignment) (n : String) :
    n ∈ (a.join b).names ↔ n ∈ a.names ∨ n ∈ b.names := by
  rw [join, NameMap.mem_names_tabulate, List.mem_append]

end Assignment

end SelfReference
