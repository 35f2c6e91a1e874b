import SelfReference.Text.Numeral

/-!
# TOML values

The values that a document writes.  Floats and date-times are kept as they are written: nothing in
this library holds one, but a date-time counts as a table of a single unknown key wherever a table
with fixed keys is expected.  The members of a table have different keys, which reading ensures.
-/

namespace SelfReference

inductive Toml where
  | str (text : String)
  | int (n : Int)
  | bool (b : Bool)
  /-- A float, as it is written. -/
  | float (literal : String)
  /-- A date, a time of day, or both, as it is written. -/
  | dateTime (literal : String)
  | arr (items : List Toml)
  | table (members : List (String × Toml))

namespace Toml

/-- The largest integer. -/
def maxInt : Int := 9223372036854775807

/-- The smallest integer. -/
def minInt : Int := -9223372036854775808

def member? (key : String) (members : List (String × Toml)) : Option Toml := members.lookup key

end Toml

end SelfReference
