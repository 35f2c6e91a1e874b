import SelfReference.Json.Value

/-!
# Reading JSON

The value that a text writes, if it writes exactly one.  A text within quotes is read in two
steps: into characters and units that were escaped by number, and from those into characters,
where two units that make up a surrogate pair are one character and one half alone has no
reading.
-/

namespace SelfReference.Json

def isSpace (c : Char) : Bool := c = ' ' || c = '\t' || c = '\n' || c = '\r'

def skipSpace (cs : List Char) : List Char := cs.dropWhile isSpace

/-! ### Text within quotes -/

/-- A part of a quoted text: a character, or a unit of sixteen bits that was escaped by number. -/
inductive Piece where
  | char (c : Char)
  | unit (u : Nat)

def escaped? : Char → Option Char
  | '"' => some '"'
  | '\\' => some '\\'
  | '/' => some '/'
  | 'b' => some '\x08'
  | 'f' => some '\x0c'
  | 'n' => some '\n'
  | 'r' => some '\r'
  | 't' => some '\t'
  | _ => none

/-- The parts of a quoted text up to its closing quote, and what follows it. -/
def readPieces : List Char → Option (List Piece × List Char)
  | '"' :: cs => some ([], cs)
  | '\\' :: 'u' :: a :: b :: c :: d :: cs =>
    if [a, b, c, d].all (Text.isDigitOf 16) then
      (readPieces cs).map fun (ps, rest) => (.unit (Text.numeral 16 [a, b, c, d]) :: ps, rest)
    else none
  | '\\' :: e :: cs => do
    let c ← escaped? e
    (readPieces cs).map fun (ps, rest) => (.char c :: ps, rest)
  | c :: cs =>
    if c = '\\' ∨ c.toNat < 0x20 then none
    else (readPieces cs).map fun (ps, rest) => (.char c :: ps, rest)
  | [] => none

/-- The characters of the parts; `none` where one half of a surrogate pair stands alone. -/
def assemble? : List Piece → Option (List Char)
  | [] => some []
  | .char c :: ps => (assemble? ps).map (c :: ·)
  | .unit u :: .unit v :: ps =>
    if 0xD800 ≤ u ∧ u < 0xDC00 ∧ 0xDC00 ≤ v ∧ v < 0xE000 then
      (assemble? ps).map (Char.ofNat (0x10000 + (u - 0xD800) * 0x400 + (v - 0xDC00)) :: ·)
    else if 0xD800 ≤ u ∧ u < 0xE000 then none
    else (assemble? (.unit v :: ps)).map (Char.ofNat u :: ·)
  | .unit u :: ps =>
    if 0xD800 ≤ u ∧ u < 0xE000 then none
    else (assemble? ps).map (Char.ofNat u :: ·)

/-- A quoted text after its opening quote; the text is `none` where it has no reading. -/
def readText (cs : List Char) : Option (Option String × List Char) :=
  (readPieces cs).map fun (ps, rest) => ((assemble? ps).map String.ofList, rest)

/-! ### Numbers -/

/-- The digits at the beginning of a text, and what follows them. -/
def readDigits (cs : List Char) : List Char × List Char :=
  (cs.takeWhile (Text.isDigitOf 10), cs.dropWhile (Text.isDigitOf 10))

/-- At least one digit. -/
def readDigits? (cs : List Char) : Option (List Char × List Char) :=
  match readDigits cs with
  | ([], _) => none
  | found => some found

/-- The part of a number before its point: one zero, or digits that begin with another one. -/
def readWhole? : List Char → Option (List Char × List Char)
  | '0' :: cs => some (['0'], cs)
  | cs => readDigits? cs

/-- A point with digits, if there is a point. -/
def readFraction? : List Char → Option (List Char × List Char)
  | '.' :: cs => (readDigits? cs).map fun (ds, rest) => ('.' :: ds, rest)
  | cs => some ([], cs)

/-- An exponent with its sign, if there is one. -/
def readExponent? : List Char → Option (List Char × List Char)
  | e :: cs =>
    if e = 'e' ∨ e = 'E' then
      match cs with
      | s :: ds =>
        if s = '+' ∨ s = '-' then (readDigits? ds).map fun (ds, rest) => (e :: s :: ds, rest)
        else (readDigits? cs).map fun (ds, rest) => (e :: ds, rest)
      | [] => none
    else some ([], e :: cs)
  | [] => some ([], [])

/-- A number without its sign. -/
def readUnsigned? (cs : List Char) : Option (List Char × List Char) := do
  let (whole, cs) ← readWhole? cs
  let (fraction, cs) ← readFraction? cs
  let (exponent, cs) ← readExponent? cs
  some (whole ++ fraction ++ exponent, cs)

def readNumber? : List Char → Option (List Char × List Char)
  | '-' :: cs => (readUnsigned? cs).map fun (ds, rest) => ('-' :: ds, rest)
  | cs => readUnsigned? cs

/-! ### Values -/

/-- An object, unless the name of a member has no reading. -/
def ofMembers (members : List (Option String × Json)) : Json :=
  match members.mapM fun (k, v) => k.map (·, v) with
  | some ms => obj ms
  | none => unreadable

mutual

/-- A value at the beginning of a text, after spaces, and what follows it.  The first argument
bounds the depth of the recursion; twice the length of the text is always enough. -/
def readValue : Nat → List Char → Option (Json × List Char)
  | 0, _ => none
  | fuel + 1, cs =>
    match skipSpace cs with
    | 'n' :: 'u' :: 'l' :: 'l' :: rest => some (null, rest)
    | 't' :: 'r' :: 'u' :: 'e' :: rest => some (bool true, rest)
    | 'f' :: 'a' :: 'l' :: 's' :: 'e' :: rest => some (bool false, rest)
    | '"' :: rest =>
      (readText rest).map fun (t, rest) => ((t.map str).getD unreadable, rest)
    | '[' :: rest =>
      match skipSpace rest with
      | ']' :: rest => some (arr [], rest)
      | rest => (readItems fuel rest).map fun (vs, rest) => (arr vs, rest)
    | '{' :: rest =>
      match skipSpace rest with
      | '}' :: rest => some (obj [], rest)
      | rest => (readMembers fuel rest).map fun (ms, rest) => (ofMembers ms, rest)
    | rest => (readNumber? rest).map fun (ds, rest) => (num (String.ofList ds), rest)

/-- The items of an array from the first one up to the closing bracket. -/
def readItems : Nat → List Char → Option (List Json × List Char)
  | 0, _ => none
  | fuel + 1, cs => do
    let (v, rest) ← readValue fuel cs
    match skipSpace rest with
    | ',' :: rest => (readItems fuel rest).map fun (vs, rest) => (v :: vs, rest)
    | ']' :: rest => some ([v], rest)
    | _ => none

/-- The members of an object from the first one up to the closing bracket. -/
def readMembers : Nat → List Char → Option (List (Option String × Json) × List Char)
  | 0, _ => none
  | fuel + 1, cs => do
    let '"' :: rest := skipSpace cs | none
    let (k, rest) ← readText rest
    let ':' :: rest := skipSpace rest | none
    let (v, rest) ← readValue fuel rest
    match skipSpace rest with
    | ',' :: rest => (readMembers fuel rest).map fun (ms, rest) => ((k, v) :: ms, rest)
    | '}' :: rest => some ([(k, v)], rest)
    | _ => none

end

def read? (text : String) : Option Json :=
  let cs := text.toList
  match readValue (2 * cs.length + 2) cs with
  | some (v, rest) => if (skipSpace rest).isEmpty then some v else none
  | none => none

end SelfReference.Json
