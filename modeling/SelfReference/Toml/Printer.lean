import SelfReference.Text.Split
import SelfReference.Toml.Reader

/-!
# Writing TOML

A table over lines: every table below it under a header of its own, every array of tables as one
header for each.  The header of a table that holds tables only is left out, for the headers below
it name it too; the header of an element of an array never is.
-/

namespace SelfReference.Toml

/-- A key, in quotes unless it can be bare. -/
def keyChars (key : String) : List Char :=
  if key.toList ≠ [] ∧ key.toList.all isBareChar then key.toList else quoted key.toList

def pathChars (path : List String) : List Char := Text.join ['.'] (path.map keyChars)

def intChars : Int → List Char
  | .ofNat n => Text.decimal n
  | .negSucc n => '-' :: Text.decimal (n + 1)

/-! ### Within a line -/

mutual

def flatChars : Toml → List Char
  | str text => quoted text.toList
  | int n => intChars n
  | bool true => "true".toList
  | bool false => "false".toList
  | float literal | dateTime literal => literal.toList
  | arr items => '[' :: (Text.join [',', ' '] (flatItems items) ++ [']'])
  | table members => '{' :: (Text.join [','] (flatMembers members) ++ [' ', '}'])

def flatItems : List Toml → List (List Char)
  | [] => []
  | v :: vs => flatChars v :: flatItems vs

/-- Members within a line, each after a blank. -/
def flatMembers : List (String × Toml) → List (List Char)
  | [] => []
  | (k, v) :: ms => (' ' :: (keyChars k ++ " = ".toList ++ flatChars v)) :: flatMembers ms

end

/-! ### Over lines -/

def isTable : Toml → Bool
  | table _ => true
  | _ => false

/-- Whether a value is written under headers: a table, or an array of tables that has some. -/
def hasHeader : Toml → Bool
  | table _ => true
  | arr items => !items.isEmpty && items.all isTable
  | _ => false

/-- The lines of the members that have no header. -/
def ownLines (members : List (String × Toml)) : List Char :=
  (members.filter fun m => !hasHeader m.2).flatMap fun m =>
    keyChars m.1 ++ " = ".toList ++ flatChars m.2 ++ ['\n']

/-- The lines of a table with its header; none for a table that holds tables only. -/
def tableLines (element : Bool) (path : List String) (members : List (String × Toml)) :
    List (List Char) :=
  let lines := ownLines members
  if element then ["[[".toList ++ pathChars path ++ "]]\n".toList ++ lines]
  else if lines.isEmpty && !members.isEmpty then []
  else ['[' :: (pathChars path ++ "]\n".toList ++ lines)]

mutual

/-- The blocks of lines that a value at a path is written in. -/
def blocksOf (path : List String) : Toml → List (List Char)
  | table members => tableLines false path members ++ blocksWithin path members
  | arr items => if items.all isTable then blocksOfItems path items else []
  | str _ | int _ | bool _ | float _ | dateTime _ => []

def blocksOfItems (path : List String) : List Toml → List (List Char)
  | [] => []
  | table members :: vs =>
    tableLines true path members ++ blocksWithin path members ++ blocksOfItems path vs
  | _ :: vs => blocksOfItems path vs

/-- The blocks of the tables below the table at a path. -/
def blocksWithin (path : List String) : List (String × Toml) → List (List Char)
  | [] => []
  | (k, v) :: ms => blocksOf (path ++ [k]) v ++ blocksWithin path ms

end

/-- A table over lines with an empty line between its blocks, as text. -/
def pretty (members : List (String × Toml)) : String :=
  let lines := ownLines members
  String.ofList (Text.join ['\n']
    ((if lines.isEmpty then [] else [lines]) ++ blocksWithin [] members))

end SelfReference.Toml
