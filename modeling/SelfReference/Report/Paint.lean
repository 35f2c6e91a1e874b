import SelfReference.Text.Split

/-!
# Colors

Messages with a mark in front, in a color where colors are wanted.  A color is switched on by an
escape sequence before the text and off by one behind it; where the text itself switches colors
off, the color is switched on again.
-/

namespace SelfReference.Report

inductive Color where
  | red
  | green
  | yellow
  | blue

def Color.on : Color → List Char
  | red => "\x1b[31m".toList
  | green => "\x1b[32m".toList
  | yellow => "\x1b[33m".toList
  | blue => "\x1b[34m".toList

def off : List Char := "\x1b[0m".toList

/-- Switches a color on again after every place where a text switches colors off. -/
def resume (color : Color) : List Char → List Char
  | '\x1b' :: '[' :: '0' :: 'm' :: cs => off ++ color.on ++ resume color cs
  | c :: cs => c :: resume color cs
  | [] => []

/-- A text in a color, if colors are wanted. -/
def paint (colored : Bool) (color : Color) (text : String) : String :=
  if colored then String.ofList (color.on ++ resume color text.toList ++ off) else text

/-! ### Messages -/

def success (colored : Bool) (message : String) : String :=
  paint colored .green s!"✓ {message}"

def failure (colored : Bool) (message : String) : String :=
  paint colored .red s!"✗ {message}"

def information (colored : Bool) (message : String) : String :=
  paint colored .blue s!"ℹ {message}"

def warning (colored : Bool) (message : String) : String :=
  paint colored .yellow s!"⚠ {message}"

end SelfReference.Report
