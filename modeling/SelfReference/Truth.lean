import SelfReference.Text.Blank

/-!
# Truth values

The four values of first-degree logic: a value records whether its sentence is told true and
whether it is told false.  The information order compares the evidence; it is a lattice of
height two with `neither` at the bottom and `both` at the top.
-/

namespace SelfReference

inductive Truth where
  /-- Told true only. -/
  | verum
  /-- Told false only. -/
  | falsum
  /-- Told true and told false. -/
  | both
  /-- Told nothing. -/
  | neither
  deriving DecidableEq, Repr

namespace Truth

instance : Inhabited Truth := ⟨neither⟩

/-- Every value, in the order of tables and reports. -/
def all : List Truth := [verum, falsum, both, neither]

theorem mem_all (v : Truth) : v ∈ all := by cases v <;> simp [all]

/-! ### Evidence -/

/-- Some evidence is for the sentence. -/
def toldTrue : Truth → Bool
  | verum | both => true
  | falsum | neither => false

/-- Some evidence is against the sentence. -/
def toldFalse : Truth → Bool
  | falsum | both => true
  | verum | neither => false

def ofEvidence : Bool → Bool → Truth
  | true, false => verum
  | false, true => falsum
  | true, true => both
  | false, false => neither

@[simp] theorem toldTrue_ofEvidence (t f : Bool) : (ofEvidence t f).toldTrue = t := by
  cases t <;> cases f <;> rfl

@[simp] theorem toldFalse_ofEvidence (t f : Bool) : (ofEvidence t f).toldFalse = f := by
  cases t <;> cases f <;> rfl

@[simp] theorem ofEvidence_told (v : Truth) : ofEvidence v.toldTrue v.toldFalse = v := by
  cases v <;> rfl

theorem ext_told {a b : Truth} (ht : a.toldTrue = b.toldTrue) (hf : a.toldFalse = b.toldFalse) :
    a = b := by
  rw [← ofEvidence_told a, ← ofEvidence_told b, ht, hf]

/-! ### The information order -/

/-- The least value holding the evidence of both. -/
def join (a b : Truth) : Truth :=
  ofEvidence (a.toldTrue || b.toldTrue) (a.toldFalse || b.toldFalse)

/-- The evidence that both hold. -/
def meet (a b : Truth) : Truth :=
  ofEvidence (a.toldTrue && b.toldTrue) (a.toldFalse && b.toldFalse)

/-- All evidence of `a` is evidence of `b`. -/
def leq (a b : Truth) : Bool := a.join b = b

instance : LE Truth := ⟨fun a b => a.leq b = true⟩

instance (a b : Truth) : Decidable (a ≤ b) := inferInstanceAs (Decidable (a.leq b = true))

instance : LT Truth := ⟨fun a b => a ≤ b ∧ a ≠ b⟩

instance (a b : Truth) : Decidable (a < b) := inferInstanceAs (Decidable (a ≤ b ∧ a ≠ b))

/-- How `a` stands to `b`; `none` where neither holds the evidence of the other. -/
def compareInfo (a b : Truth) : Option Ordering :=
  if a = b then some .eq
  else if a ≤ b then some .lt
  else if b ≤ a then some .gt
  else none

/-- The order is containment of evidence. -/
theorem le_iff_told {a b : Truth} :
    a ≤ b ↔ (a.toldTrue = true → b.toldTrue = true) ∧
      (a.toldFalse = true → b.toldFalse = true) := by
  cases a <;> cases b <;> decide

/-- The longest ascent from `neither` takes two steps. -/
def height : Nat := 2

/-! ### Names -/

def name : Truth → String
  | verum => "true"
  | falsum => "false"
  | both => "both"
  | neither => "neither"

instance : ToString Truth := ⟨name⟩

/-- The value of a lower-case long or one-letter name. -/
def ofLoweredName? : String → Option Truth
  | "true" | "t" => some verum
  | "false" | "f" => some falsum
  | "both" | "b" => some both
  | "neither" | "n" => some neither
  | _ => none

/-- Reads a long or one-letter name in either case, with blanks around it. -/
def parse? (s : String) : Option Truth :=
  ofLoweredName? (Text.lowered (String.ofList (Text.trimBlank s.toList)))

/-- A value is read back from its long name. -/
theorem parse?_name (v : Truth) : parse? v.name = some v := by cases v <;> decide +kernel

/-- What a text that names no value is answered with. -/
def unknownNameMessage (s : String) : String := s!"Invalid truth value: {s}"

end Truth

end SelfReference
