import SelfReference.Text.Numeral

/-!
# JSON values

A number is kept as it is written.  The members of an object keep their order and their
repetitions, so that what reads an object decides about both.
-/

namespace SelfReference

inductive Json where
  | null
  | bool (b : Bool)
  /-- A number, as it is written. -/
  | num (literal : String)
  | str (text : String)
  | arr (items : List Json)
  | obj (members : List (String × Json))
  /-- A well-formed value that has no reading: its text, or the name of a member, holds one half
  of a surrogate pair. -/
  | unreadable

namespace Json

def ofNat (n : Nat) : Json := num (Text.decimalText n)

/-- The values at a member name, in order. -/
def membersNamed (name : String) (members : List (String × Json)) : List Json :=
  (members.filter fun m => m.1 = name).map (·.2)

/-- The value at a known key of an object: `none` where the key is repeated, `some none` where it
is missing. -/
def field? (key : String) (members : List (String × Json)) : Option (Option Json) :=
  match membersNamed key members with
  | [] => some none
  | [v] => some (some v)
  | _ => none

def text? : Json → Option String
  | str text => some text
  | _ => none

/-- The number of a literal that consists of digits only. -/
def natOfLiteral? (literal : String) : Option Nat :=
  let digits := literal.toList
  if digits ≠ [] ∧ digits.all (Text.isDigitOf 10) then some (Text.numeral 10 digits) else none

end Json

end SelfReference
