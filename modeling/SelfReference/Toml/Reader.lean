import SelfReference.Toml.Draft
import SelfReference.Toml.Quoted
import SelfReference.Toml.Scalar

/-!
# Reading TOML

The table that a text writes, if it follows the format.  Values within values are limited in
depth, dotted keys in length.
-/

namespace SelfReference.Toml

/-! ### Lines -/

def lineFeeds : List Char → List Char
  | '\r' :: '\n' :: cs => '\n' :: lineFeeds cs
  | c :: cs => c :: lineFeeds cs
  | [] => []

def skipComment : List Char → List Char
  | '#' :: cs => cs.dropWhile isPlain
  | cs => cs

/-- What follows the line that ends here, save for blanks and a comment. -/
def endLine? (cs : List Char) : Option (List Char) :=
  match skipComment (skipBlank cs) with
  | [] => some []
  | '\n' :: rest => some rest
  | _ => none

/-- Passes over blanks, line ends and comments. -/
def skipTrivia (comment : Bool) : List Char → List Char
  | [] => []
  | c :: cs =>
    if comment then
      if isPlain c then skipTrivia true cs
      else if c = '\n' then skipTrivia false cs
      else c :: cs
    else if isBlank c ∨ c = '\n' then skipTrivia false cs
    else if c = '#' then skipTrivia true cs
    else c :: cs

/-! ### Keys -/

/-- The characters of a key without quotes. -/
def isBareChar (c : Char) : Bool := c.isAlphanum || c = '_' || c = '-'

/-- A key, bare or in quotes on one line. -/
def readKey : List Char → Option (String × List Char)
  | '"' :: cs => (readBasic cs).map fun (k, rest) => (String.ofList k, rest)
  | '\x27' :: cs => (readLiteral cs).map fun (k, rest) => (String.ofList k, rest)
  | cs =>
    let key := cs.takeWhile isBareChar
    if key.isEmpty then none else some (String.ofList key, cs.dropWhile isBareChar)

/-- The keys of the longest dotted key. -/
def keyLimit : Nat := 79

/-- A dotted key with blanks around its parts; the number bounds its parts. -/
def readPath : Nat → List Char → Option (List String × List Char)
  | 0, _ => none
  | limit + 1, cs => do
    let (key, rest) ← readKey (skipBlank cs)
    match skipBlank rest with
    | '.' :: rest => (readPath limit rest).map fun (keys, rest) => (key :: keys, rest)
    | rest => some ([key], rest)

/-! ### Values -/

def depthLimit : Nat := 79

/-- The items of an array up to its closing bracket.  The number bounds them; the length of the
text is enough. -/
def readItems (item : List Char → Option (Toml × List Char)) :
    Nat → List Char → Option (List Toml × List Char)
  | 0, _ => none
  | bound + 1, cs =>
    match skipTrivia false cs with
    | ']' :: rest => some ([], rest)
    | cs => do
      let (v, rest) ← item cs
      match skipTrivia false rest with
      | ',' :: rest => (readItems item bound rest).map fun (vs, rest) => (v :: vs, rest)
      | ']' :: rest => some ([v], rest)
      | _ => none

def readPair (item : List Char → Option (Toml × List Char)) (cs : List Char) :
    Option ((List String × Toml) × List Char) := do
  let (path, rest) ← readPath keyLimit cs
  let '=' :: rest := rest | none
  let (v, rest) ← item (skipBlank rest)
  some ((path, v), rest)

/-- The keys and values of a table in one line, from the first one up to the closing bracket. -/
def readPairs (item : List Char → Option (Toml × List Char)) :
    Nat → List Char → Option (List (List String × Toml) × List Char)
  | 0, _ => none
  | bound + 1, cs => do
    let (p, rest) ← readPair item cs
    match skipBlank rest with
    | ',' :: rest => (readPairs item bound rest).map fun (ps, rest) => (p :: ps, rest)
    | '}' :: rest => some ([p], rest)
    | _ => none

def readInline (item : List Char → Option (Toml × List Char)) (cs : List Char) :
    Option (Toml × List Char) := do
  let (pairs, rest) ← match skipBlank cs with
    | '}' :: rest => some ([], rest)
    | cs => readPairs item (cs.length + 1) cs
  let v ← Draft.inlineTable? pairs
  some (v, rest)

/-- A value that holds no others. -/
def readFlat (cs : List Char) : Option (Toml × List Char) :=
  match cs with
  | '"' :: _ | '\x27' :: _ =>
    (readQuoted cs).map fun (text, rest) => (.str (String.ofList text), rest)
  | cs =>
    let (token, rest) := readToken cs
    (ofToken? token).map (·, rest)

/-- A value and what follows it; the number bounds how deep values are written within it. -/
def readValue : Nat → List Char → Option (Toml × List Char)
  | 0, cs => readFlat cs
  | depth + 1, cs =>
    match cs with
    | '[' :: cs =>
      (readItems (readValue depth) (cs.length + 1) cs).map fun (vs, rest) => (.arr vs, rest)
    | '{' :: cs => readInline (readValue depth) cs
    | cs => readFlat cs

/-! ### Statements -/

def readStatement : List Char → Option (Statement × List Char)
  | '[' :: '[' :: cs => do
    let (path, rest) ← readPath keyLimit cs
    let ']' :: ']' :: rest := rest | none
    some (.element path, rest)
  | '[' :: cs => do
    let (path, rest) ← readPath keyLimit cs
    let ']' :: rest := rest | none
    some (.table path, rest)
  | cs => (readPair (readValue depthLimit) cs).map fun ((path, v), rest) => (.pair path v, rest)

/-- The statements of a text, each on a line of its own among empty lines and comments.  The
number bounds the lines; the length of the text is enough. -/
def readStatements : Nat → List Char → Option (List Statement)
  | 0, _ => none
  | bound + 1, cs =>
    if cs.isEmpty then some []
    else
      match endLine? cs with
      | some rest => readStatements bound rest
      | none => do
        let (s, rest) ← readStatement (skipBlank cs)
        let rest ← endLine? rest
        (readStatements bound rest).map (s :: ·)

/-- Passes over a mark of the byte order. -/
def skipMark : List Char → List Char
  | '\ufeff' :: cs => cs
  | cs => cs

def read? (text : String) : Option (List (String × Toml)) :=
  let cs := lineFeeds (skipMark text.toList)
  (readStatements (cs.length + 1) cs).bind Document.ofStatements?

end SelfReference.Toml
