import SelfReference.Text.Split
import SelfReference.Text.Width

/-!
# Tables

Rows of cells in a frame with round corners.  A column is as wide as its widest line.  The first
row is a heading: its cells are centered and a rule sets it off; all other cells begin at the
left.  A row is as high as its highest cell, and lower cells begin at the top.
-/

namespace SelfReference.Report

open Text

abbrev Cell := List (List Char)

def cell (text : String) : Cell := split '\n' text.toList

def cellWidth (c : Cell) : Nat := (c.map width).foldl max 0

def spaces (n : Nat) : List Char := List.replicate n ' '

/-- A line of a cell within the width of its column.  All lines of a centered cell begin at the
same distance from the left. -/
def padded (centered : Bool) (column : Nat) (c : Cell) (line : List Char) : List Char :=
  let indent := if centered then (column - cellWidth c) / 2 else 0
  spaces indent ++ line ++ spaces (column - indent - width line)

/-- A line of the frame: the left end, the rule over each column, the crossings, the right end. -/
def rule (left crossing right : Char) (columns : List Nat) : List Char :=
  left :: (join [crossing] (columns.map fun w => List.replicate (w + 2) '─') ++ [right])

/-- One line of a row, over all columns. -/
def rowLine (centered : Bool) (columns : List Nat) (row : List Cell) (k : Nat) : List Char :=
  '│' :: (join ['│'] ((columns.zip row).map fun (w, c) =>
    ' ' :: (padded centered w c (c.getD k []) ++ [' '])) ++ ['│'])

def rowLines (centered : Bool) (columns : List Nat) (row : List Cell) : List (List Char) :=
  (List.range ((row.map List.length).foldl max 0)).map (rowLine centered columns row)

def columnWidths (count : Nat) (rows : List (List Cell)) : List Nat :=
  (List.range count).map fun i => (rows.map fun row => cellWidth (row.getD i [])).foldl max 0

/-- A table of rows of texts, the first row its heading.  Short rows are filled with empty
cells. -/
def table (rows : List (List String)) : String :=
  let count := (rows.map List.length).foldl max 0
  let cells := rows.map fun row => (row ++ List.replicate (count - row.length) "").map cell
  let columns := columnWidths count cells
  let body := match cells with
    | [] => []
    | [heading] => rowLines true columns heading
    | heading :: rest =>
      rowLines true columns heading ++ [rule '├' '┼' '┤' columns] ++
        rest.flatMap (rowLines false columns)
  String.ofList
    (join ['\n'] ([rule '╭' '┬' '╮' columns] ++ body ++ [rule '╰' '┴' '╯' columns]))

end SelfReference.Report
