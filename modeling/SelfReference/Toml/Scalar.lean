import SelfReference.Toml.Value

/-!
# Numbers, dates and truth

The values that are written without quotes or brackets.  Such a value is one token, a run of
letters, digits and a few marks; only a date-time may hold a blank, between its date and its time.
-/

namespace SelfReference.Toml

open Text

/-! ### Digits -/

/-- Digits of a base, single underscores between them; the answer leaves the underscores out. -/
def digitRun? (base : Nat) : List Char → Option (List Char)
  | [] => none
  | [c] => if isDigitOf base c then some [c] else none
  | c :: '_' :: cs => if isDigitOf base c then (digitRun? base cs).map (c :: ·) else none
  | c :: d :: cs => if isDigitOf base c then (digitRun? base (d :: cs)).map (c :: ·) else none

/-- Decimal digits without leading zeros. -/
def wholeRun? : List Char → Option (List Char)
  | '0' :: cs => if cs.isEmpty then some ['0'] else none
  | cs => digitRun? 10 cs

/-- Takes a sign off; true for a minus. -/
def splitSign : List Char → Bool × List Char
  | '-' :: cs => (true, cs)
  | '+' :: cs => (false, cs)
  | cs => (false, cs)

/-! ### Integers -/

/-- An integer, if it is within range. -/
def ofInt? (n : Int) : Option Int := if minInt ≤ n ∧ n ≤ maxInt then some n else none

/-- An integer in decimal notation with an optional sign, or in hexadecimal, octal or binary
notation. -/
def integer? : List Char → Option Int
  | '0' :: 'x' :: ds => (digitRun? 16 ds).bind fun ds => ofInt? (numeral 16 ds)
  | '0' :: 'o' :: ds => (digitRun? 8 ds).bind fun ds => ofInt? (numeral 8 ds)
  | '0' :: 'b' :: ds => (digitRun? 2 ds).bind fun ds => ofInt? (numeral 2 ds)
  | cs =>
    let (negative, ds) := splitSign cs
    (wholeRun? ds).bind fun ds =>
      ofInt? (if negative then -(numeral 10 ds : Int) else numeral 10 ds)

/-! ### Floats -/

/-- The least number that is nearer to infinity than to any double, or as near: half a unit above
the largest double. -/
def doubleLimit : Nat := Nat.pow 2 1024 - Nat.pow 2 970

/-- Whether `m · 10 ^ e` rounds to infinity as a double.  Only numbers of about the size of the
limit are compared with it. -/
def roundsToInfinity (m : Nat) (e : Int) : Bool :=
  let magnitude := (decimal m).length + e
  if m = 0 ∨ magnitude < 309 then false
  else if 310 < magnitude then true
  else if e < 0 then doubleLimit * Nat.pow 10 e.natAbs ≤ m
  else doubleLimit ≤ m * Nat.pow 10 e.natAbs

/-- A text before and after the first character of a kind; `none` where there is no such
character. -/
def cutAt (p : Char → Bool) (cs : List Char) : List Char × Option (List Char) :=
  match cs.dropWhile fun c => !p c with
  | [] => (cs, none)
  | _ :: rest => (cs.takeWhile fun c => !p c, some rest)

/-- The digits of an optional part: none where it is missing, `none` where it is malformed. -/
def optionalRun? : Option (List Char) → Option (List Char)
  | none => some []
  | some cs => digitRun? 10 cs

/-- A number with a fraction, an exponent or both.  A positive one must not round to infinity. -/
def isFloat (cs : List Char) : Bool :=
  let (negative, cs) := splitSign cs
  if cs = ['i', 'n', 'f'] ∨ cs = ['n', 'a', 'n'] then true
  else
    let (mantissa, exponent) := cutAt (fun c => c = 'e' || c = 'E') cs
    let (whole, fraction) := cutAt (· = '.') mantissa
    let (lowered, power) := splitSign (exponent.getD [])
    match wholeRun? whole, optionalRun? fraction, optionalRun? (exponent.map fun _ => power) with
    | some ws, some fs, some es =>
      let p : Int := if lowered then -(numeral 10 es : Int) else numeral 10 es
      (fraction.isSome || exponent.isSome) &&
        (negative || !roundsToInfinity (numeral 10 (ws ++ fs)) (p - fs.length))
    | _, _, _ => false

/-! ### Dates and times -/

/-- Two digits between bounds. -/
def pairWithin? (low high : Nat) : List Char → Option (Nat × List Char)
  | a :: b :: cs =>
    let n := numeral 10 [a, b]
    if isDigitOf 10 a && isDigitOf 10 b && low ≤ n && n ≤ high then some (n, cs) else none
  | _ => none

def daysOf (year month : Nat) : Nat :=
  if month = 2 then
    if year % 4 = 0 ∧ (year % 100 ≠ 0 ∨ year % 400 = 0) then 29 else 28
  else if month = 4 ∨ month = 6 ∨ month = 9 ∨ month = 11 then 30
  else 31

def afterDate? : List Char → Option (List Char)
  | a :: b :: c :: d :: '-' :: cs => do
    guard ([a, b, c, d].all (isDigitOf 10))
    let (month, cs) ← pairWithin? 1 12 cs
    let '-' :: cs := cs | none
    let (_, cs) ← pairWithin? 1 (daysOf (numeral 10 [a, b, c, d]) month) cs
    some cs
  | _ => none

/-- What follows a time of day; a fraction of a second belongs to it. -/
def afterTime? (cs : List Char) : Option (List Char) := do
  let (_, cs) ← pairWithin? 0 23 cs
  let ':' :: cs := cs | none
  let (_, cs) ← pairWithin? 0 59 cs
  let ':' :: cs := cs | none
  let (_, cs) ← pairWithin? 0 60 cs
  match cs with
  | '.' :: d :: rest => if isDigitOf 10 d then some (rest.dropWhile (isDigitOf 10)) else some cs
  | _ => some cs

/-- Nothing, or a distance from universal time. -/
def isOffset : List Char → Bool
  | [] => true
  | [c] => c = 'Z' || c = 'z'
  | c :: cs =>
    (c = '+' || c = '-') &&
      match pairWithin? 0 23 cs with
      | some (_, ':' :: cs) => (pairWithin? 0 59 cs).any fun r => r.2.isEmpty
      | _ => false

/-- A date, a time of day, or both with an optional distance from universal time. -/
def isDateTime (cs : List Char) : Bool :=
  match afterDate? cs with
  | some [] => true
  | some (c :: rest) => (c = 'T' || c = 't' || c = ' ') && (afterTime? rest).any isOffset
  | none => (afterTime? cs).any (·.isEmpty)

/-! ### Tokens -/

def isTokenChar (c : Char) : Bool :=
  c.isAlphanum || c = '+' || c = '-' || c = '_' || c = '.' || c = ':'

/-- The token at the beginning of a text, and what follows it.  A token that follows a date after
one blank belongs to it. -/
def readToken (cs : List Char) : List Char × List Char :=
  let token := cs.takeWhile isTokenChar
  match cs.dropWhile isTokenChar with
  | ' ' :: rest =>
    let second := rest.takeWhile isTokenChar
    if afterDate? token = some [] ∧ second ≠ [] then
      (token ++ ' ' :: second, rest.dropWhile isTokenChar)
    else (token, ' ' :: rest)
  | rest => (token, rest)

def ofToken? (cs : List Char) : Option Toml :=
  if cs = ['t', 'r', 'u', 'e'] then some (.bool true)
  else if cs = ['f', 'a', 'l', 's', 'e'] then some (.bool false)
  else if isDateTime cs then some (.dateTime (String.ofList cs))
  else if isFloat cs then some (.float (String.ofList cs))
  else (integer? cs).map .int

end SelfReference.Toml
