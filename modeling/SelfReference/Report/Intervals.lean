import SelfReference.Interval
import SelfReference.Json.Printer
import SelfReference.Report.Paint
import SelfReference.Report.Table
import SelfReference.Settings

/-!
# Reports of intervals

The interval of every sentence: as a table with the smallest interval around all below it, as a
JSON object, or on lines of their own.
-/

namespace SelfReference

/-- A number with so many decimals.  The bounds, midpoints and widths of projected intervals are
0, a half or 1, which decimals write exactly. -/
def fixed (places : Nat) (x : Float) : String :=
  let scale := Nat.pow 10 places
  let n := (x * scale.toFloat).round.toUInt64.toNat
  let fraction := Text.decimal (n % scale)
  let zeros := List.replicate (places - fraction.length) '0'
  Text.decimalText (n / scale) ++
    if places = 0 then "" else String.ofList ('.' :: (zeros ++ fraction))

namespace Interval

/-- The bounds with so many decimals, between brackets. -/
def display (places : Nat) (i : Interval) : String :=
  s!"[{fixed places i.lower}, {fixed places i.upper}]"

/-- The bounds as a JSON array. -/
def toJson (i : Interval) : Json := .arr [.num (fixed 1 i.lower), .num (fixed 1 i.upper)]

end Interval

def Projection.toJson (p : Projection) : Json := .obj (p.entries.map fun e => (e.1, e.2.toJson))

namespace Report

/-- What stands in place of a table of no sentences. -/
def noSentences (colored : Bool) : String := paint colored .yellow "No sentences."

def intervalTable (colored : Bool) (p : Projection) : String :=
  match p.hull with
  | none => noSentences colored
  | some hull =>
    Text.lines [
      table (["Sentence", "Lower", "Upper", "Midpoint", "Width"] :: p.entries.map fun (name, i) =>
        [name, fixed 2 i.lower, fixed 2 i.upper, fixed 2 i.midpoint, fixed 2 i.width]),
      information colored s!"Overall: {hull.display 2}"]

def intervals (format : OutputFormat) (colored : Bool) (p : Projection) : String :=
  match format with
  | .table => intervalTable colored p
  | .json => p.toJson.pretty
  | .quiet => Text.lines (p.entries.map fun (name, i) =>
      s!"{name} {fixed 0 i.lower} {fixed 0 i.upper}")

end Report

end SelfReference
