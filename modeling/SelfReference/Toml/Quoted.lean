import SelfReference.Text.Numeral

/-!
# Quoted text in TOML

Four notations: between double quotes with escapes or between apostrophes without, each on one
line or, with the mark written three times, over lines.  Reading knows all four; writing takes the
first of them, in a fixed order, that shows the text without escapes.  Line ends are line feeds
here: a carriage return before one is dropped before anything is read.
-/

namespace SelfReference.Toml

open Text

/-- The characters that stand for themselves in a quoted text or in a comment. -/
def isPlain (c : Char) : Bool := c = '\t' || (0x20 ≤ c.toNat && c.toNat ≠ 0x7F)

def isBlank (c : Char) : Bool := c = ' ' || c = '\t'

def skipBlank (cs : List Char) : List Char := cs.dropWhile isBlank

/-! ### Reading -/

def escaped? : Char → Option Char
  | '"' => some '"'
  | '\\' => some '\\'
  | 'b' => some '\x08'
  | 'f' => some '\x0c'
  | 'n' => some '\n'
  | 'r' => some '\r'
  | 't' => some '\t'
  | _ => none

def codePoint? (digits : List Char) : Option Char :=
  let n := numeral 16 digits
  if digits.all (isDigitOf 16) ∧ n.isValidChar then some (Char.ofNat n) else none

/-- The characters read so far in front of what is read next. -/
def consRead (c : Char) : Option (List Char × List Char) → Option (List Char × List Char) :=
  Option.map fun (text, rest) => (c :: text, rest)

/-- A text on one line after its opening double quote, and what follows its closing one. -/
def readBasic : List Char → Option (List Char × List Char)
  | '"' :: cs => some ([], cs)
  | '\\' :: 'u' :: a :: b :: c :: d :: cs =>
    (codePoint? [a, b, c, d]).bind fun x => consRead x (readBasic cs)
  | '\\' :: 'U' :: a :: b :: c :: d :: e :: f :: g :: h :: cs =>
    (codePoint? [a, b, c, d, e, f, g, h]).bind fun x => consRead x (readBasic cs)
  | '\\' :: e :: cs => (escaped? e).bind fun x => consRead x (readBasic cs)
  | c :: cs => if isPlain c ∧ c ≠ '\\' then consRead c (readBasic cs) else none
  | [] => none

/-- A text on one line after its opening apostrophe, and what follows its closing one. -/
def readLiteral : List Char → Option (List Char × List Char)
  | '\x27' :: cs => some ([], cs)
  | c :: cs => if isPlain c then consRead c (readLiteral cs) else none
  | [] => none

/-- The end of a text over lines after three closing marks: up to two more marks belong to the
text. -/
def closeLong (mark : Char) (cs : List Char) : Option (List Char × List Char) :=
  let marks := cs.takeWhile (· = mark)
  if marks.length ≤ 2 then some (marks, cs.dropWhile (· = mark)) else none

/-- Whether only spaces and tabs are left of a line. -/
def atLineEnd (cs : List Char) : Bool := (skipBlank cs).head? = some '\n'

/-- A text over lines after its three opening double quotes.  While `trimming`, which a backslash
at the end of a line begins, blanks and line ends are passed over. -/
def readLongBasic (trimming : Bool) : List Char → Option (List Char × List Char)
  | '"' :: '"' :: '"' :: cs => closeLong '"' cs
  | '\\' :: 'u' :: a :: b :: c :: d :: cs =>
    (codePoint? [a, b, c, d]).bind fun x => consRead x (readLongBasic false cs)
  | '\\' :: 'U' :: a :: b :: c :: d :: e :: f :: g :: h :: cs =>
    (codePoint? [a, b, c, d, e, f, g, h]).bind fun x => consRead x (readLongBasic false cs)
  | '\\' :: e :: cs =>
    match escaped? e with
    | some x => consRead x (readLongBasic false cs)
    | none => if atLineEnd (e :: cs) then readLongBasic true (e :: cs) else none
  | c :: cs =>
    if trimming ∧ (isBlank c ∨ c = '\n') then readLongBasic true cs
    else if (isPlain c ∧ c ≠ '\\') ∨ c = '\n' then consRead c (readLongBasic false cs)
    else none
  | [] => none

def readLongLiteral : List Char → Option (List Char × List Char)
  | '\x27' :: '\x27' :: '\x27' :: cs => closeLong '\x27' cs
  | c :: cs => if isPlain c ∨ c = '\n' then consRead c (readLongLiteral cs) else none
  | [] => none

def skipLineEnd : List Char → List Char
  | '\n' :: cs => cs
  | cs => cs

/-- A text in any notation from its opening mark on, and what follows it. -/
def readQuoted : List Char → Option (List Char × List Char)
  | '"' :: '"' :: '"' :: cs => readLongBasic false (skipLineEnd cs)
  | '"' :: cs => readBasic cs
  | '\x27' :: '\x27' :: '\x27' :: cs => readLongLiteral (skipLineEnd cs)
  | '\x27' :: cs => readLiteral cs
  | _ => none

/-! ### Writing -/

/-- The length of the longest run of a character. -/
def longestRun (mark : Char) (cs : List Char) : Nat :=
  (cs.foldl (fun (longest, run) c =>
    let run := if c = mark then run + 1 else 0
    (max longest run, run)) (0, 0)).1

/-- Control characters other than a tab and a line feed; they are always escaped. -/
def isControl (c : Char) : Bool := c ≠ '\t' && c ≠ '\n' && (c.toNat < 0x20 || c.toNat = 0x7F)

/-- The escape of a character between double quotes on one line, or the character itself. -/
def escapeBasic (c : Char) : List Char :=
  if c = '"' then ['\\', '"']
  else if c = '\\' then ['\\', '\\']
  else if c = '\x08' then ['\\', 'b']
  else if c = '\t' then ['\\', 't']
  else if c = '\n' then ['\\', 'n']
  else if c = '\x0c' then ['\\', 'f']
  else if c = '\r' then ['\\', 'r']
  else if isControl c then '\\' :: 'u' :: fourDigits capitalDigits c.toNat
  else [c]

/-- The text of three-quote notation: line feeds stand for themselves, and so do double quotes
except every third one of a run, which could close the text.  The number counts the quotes that
stand unescaped just before. -/
def escapeLong (quotes : Nat) : List Char → List Char
  | [] => []
  | c :: cs =>
    if c = '"' ∧ quotes < 2 then c :: escapeLong (quotes + 1) cs
    else if c = '\n' then c :: escapeLong 0 cs
    else escapeBasic c ++ escapeLong 0 cs

/-- Marks around a text over lines; a text that has a line feed begins on a line of its own. -/
def long (mark : Char) (text body : List Char) : List Char :=
  let marks := [mark, mark, mark]
  marks ++ (if '\n' ∈ text then ['\n'] else []) ++ body ++ marks

def quoted (text : List Char) : List Char :=
  let controls := text.any isControl
  let quotes := longestRun '"' text
  let apostrophes := longestRun '\x27' text
  let basic := '"' :: (text.flatMap escapeBasic ++ ['"'])
  if !controls && '\\' ∉ text && quotes = 0 && '\n' ∉ text then basic
  else if !controls && apostrophes = 0 && '\n' ∉ text then '\x27' :: (text ++ ['\x27'])
  else if !controls && '\\' ∉ text && quotes ≤ 2 then long '"' text (escapeLong 0 text)
  else if !controls && apostrophes ≤ 2 then long '\x27' text text
  else if '\n' ∈ text then long '"' text (escapeLong 0 text)
  else basic

end SelfReference.Toml
