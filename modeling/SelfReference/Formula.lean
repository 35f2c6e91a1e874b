import SelfReference.Connectives
import SelfReference.NameMap

/-!
# Formulas

What a sentence says: literals and references to sentences under negation, conjunction and
disjunction.  A formula is evaluated under given connectives and a valuation of names.
-/

namespace SelfReference

inductive Formula where
  | lit (value : Truth)
  | ref (name : String)
  | neg (operand : Formula)
  | conj (left right : Formula)
  | disj (left right : Formula)
  deriving DecidableEq, Repr

abbrev Valuation := String → Truth

namespace Formula

/-- The value of a formula under connectives and a valuation. -/
def eval (c : Connectives) (v : Valuation) : Formula → Truth
  | lit t => t
  | ref n => v n
  | neg f => c.neg (f.eval c v)
  | conj f g => c.conj (f.eval c v) (g.eval c v)
  | disj f g => c.disj (f.eval c v) (g.eval c v)

/-- The names at the references, from left to right with repetitions. -/
def occurrences : Formula → List String
  | lit _ => []
  | ref n => [n]
  | neg f => f.occurrences
  | conj f g | disj f g => f.occurrences ++ g.occurrences

/-- The referenced names, each once, in ascending order. -/
def references (f : Formula) : List String := (NameMap.tabulate f.occurrences fun _ => ()).names

def size : Formula → Nat
  | lit _ | ref _ => 1
  | neg f => f.size + 1
  | conj f g | disj f g => f.size + g.size + 1

/-- The formula as text, every binary node in parentheses. -/
def display : Formula → String
  | lit t => t.name
  | ref n => n
  | neg f => "¬" ++ f.display
  | conj f g => "(" ++ f.display ++ " ∧ " ++ g.display ++ ")"
  | disj f g => "(" ++ f.display ++ " ∨ " ++ g.display ++ ")"

instance : ToString Formula := ⟨display⟩

/-- Only the names at references matter to the value. -/
theorem eval_congr (c : Connectives) {v w : Valuation} (f : Formula)
    (h : ∀ n ∈ f.occurrences, v n = w n) : f.eval c v = f.eval c w := by
  induction f with
  | lit t => rfl
  | ref n => exact h n (by simp [occurrences])
  | neg f ih => simp only [eval, ih h]
  | conj f g ihf ihg =>
    simp only [occurrences, List.mem_append] at h
    simp only [eval, ihf fun n hn => h n (Or.inl hn), ihg fun n hn => h n (Or.inr hn)]
  | disj f g ihf ihg =>
    simp only [occurrences, List.mem_append] at h
    simp only [eval, ihf fun n hn => h n (Or.inl hn), ihg fun n hn => h n (Or.inr hn)]

end Formula

end SelfReference
