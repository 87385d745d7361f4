import BraceScript.Position

/-!
# Excerpt — showing a place of the source

The line of a position is shown under a heading, with a caret under the place.
-/

namespace BraceScript.Excerpt

/-- The lines of a text, without their line feeds; a line feed at the very end starts no further
line. -/
def lines : List Char → List (List Char)
  | [] => []
  | c :: rest =>
    if c = '\n' then [] :: lines rest
    else
      match lines rest with
      | [] => [[c]]
      | l :: ls => (c :: l) :: ls

/-- A line without the carriage returns at its end. -/
def trim (line : List Char) : List Char := (line.reverse.dropWhile (· == '\r')).reverse

/-- The beginning of a text that takes exactly `count` bytes, if a character ends there. -/
def leading? : Nat → List Char → Option (List Char)
  | 0, _ => some []
  | _ + 1, [] => none
  | count + 1, c :: rest =>
    if c.utf8Size ≤ count + 1 then (leading? (count + 1 - c.utf8Size) rest).map (c :: ·) else none

/-- A text blanked out: a tab stays a tab, any other character becomes a blank. -/
def padding (text : List Char) : List Char := text.map fun c => if c = '\t' then '\t' else ' '

/-- The heading. -/
def heading (p : Position) : String := s!"Error occurred at line {p.line}"

/-- A line and a caret under one of its columns.  A column past the end of the line, or inside a
character, puts the caret after the line. -/
def marked (line : List Char) (column : Nat) : String :=
  let before := (leading? (column - 1) line).getD line
  "  " ++ String.ofList line ++ "\n  " ++ String.ofList (padding before) ++ "^"

/-- The heading, the line of a position, and a caret under it.  A line that is not there is not
shown. -/
def text (source : String) (p : Position) : String :=
  match (lines source.toList)[p.line - 1]? with
  | none => heading p
  | some line => heading p ++ "\n" ++ marked (trim line) p.column

end BraceScript.Excerpt
