/-!
# Position — where a piece of source text stands

A position is a line and a column, both counted from one.  Columns count the bytes of the UTF-8
text, so a character may move the column by more than one.
-/

namespace BraceScript

/-- A place in a source text: its line, and its column in bytes. -/
structure Position where
  line : Nat
  column : Nat
deriving DecidableEq, Repr, Inhabited

namespace Position

/-- The place of the first character. -/
def start : Position := ⟨1, 1⟩

/-- The wording of a position in messages. -/
def text (p : Position) : String := s!"line {p.line}, column {p.column}"

end Position

end BraceScript
