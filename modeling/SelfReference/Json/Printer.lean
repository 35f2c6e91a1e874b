import SelfReference.Json.Value
import SelfReference.Text.Split

/-!
# JSON text

Two renderings of a value: compact, without any space, and spread over lines with two spaces to a
level.  Quotes, backslashes and control characters below U+0020 are escaped, the ones that have a
letter by it, the others by four small hexadecimal digits.
-/

namespace SelfReference.Json

/-- The escape of a character within quotes, or the character itself. -/
def escapeChar (c : Char) : List Char :=
  if c = '"' then ['\\', '"']
  else if c = '\\' then ['\\', '\\']
  else if c = '\x08' then ['\\', 'b']
  else if c = '\t' then ['\\', 't']
  else if c = '\n' then ['\\', 'n']
  else if c = '\x0c' then ['\\', 'f']
  else if c = '\r' then ['\\', 'r']
  else if c.toNat < 0x20 then '\\' :: 'u' :: Text.fourDigits Text.smallDigits c.toNat
  else [c]

def quoted (s : String) : List Char := '"' :: (s.toList.flatMap escapeChar ++ ['"'])

/-! ### Compact -/

mutual

/-- A value without any space. -/
def compactChars : Json → List Char
  | null => "null".toList
  | bool true => "true".toList
  | bool false => "false".toList
  | num literal => literal.toList
  | str text => quoted text
  | arr items => '[' :: (Text.join [','] (compactItems items) ++ [']'])
  | obj members => '{' :: (Text.join [','] (compactMembers members) ++ ['}'])
  | unreadable => "null".toList

/-- The items of an array, each without any space. -/
def compactItems : List Json → List (List Char)
  | [] => []
  | v :: vs => compactChars v :: compactItems vs

/-- The members of an object, each without any space. -/
def compactMembers : List (String × Json) → List (List Char)
  | [] => []
  | (k, v) :: ms => (quoted k ++ ':' :: compactChars v) :: compactMembers ms

end

/-- A value without any space, as text. -/
def compact (v : Json) : String := String.ofList (compactChars v)

/-! ### Over lines -/

def newLine (level : Nat) : List Char := '\n' :: List.replicate (2 * level) ' '

/-- Parts between brackets, each on a line of its own; brackets alone where there is none. -/
def block (left right : Char) (level : Nat) (parts : List (List Char)) : List Char :=
  if parts.isEmpty then [left, right]
  else left :: (parts.map (newLine (level + 1) ++ ·) |> Text.join [',']) ++ newLine level ++ [right]

mutual

/-- A value over lines, from a level on. -/
def prettyChars (level : Nat) : Json → List Char
  | arr items => block '[' ']' level (prettyItems (level + 1) items)
  | obj members => block '{' '}' level (prettyMembers (level + 1) members)
  | null => "null".toList
  | bool true => "true".toList
  | bool false => "false".toList
  | num literal => literal.toList
  | str text => quoted text
  | unreadable => "null".toList

def prettyItems (level : Nat) : List Json → List (List Char)
  | [] => []
  | v :: vs => prettyChars level v :: prettyItems level vs

def prettyMembers (level : Nat) : List (String × Json) → List (List Char)
  | [] => []
  | (k, v) :: ms => (quoted k ++ ':' :: ' ' :: prettyChars level v) :: prettyMembers level ms

end

/-- A value over lines, as text. -/
def pretty (v : Json) : String := String.ofList (prettyChars 0 v)

end SelfReference.Json
