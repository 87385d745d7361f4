import BraceScript.SyntaxError

/-!
# Token/Lexer — cutting a source into tokens

`Piece.scan` looks at the front of a text and says what stands there and how far it reaches: always
the longest piece that has a form.  A `Lexer` is the text still to be cut, with a count of the bytes
and the lines before it; only text that stands between tokens can hold line feeds, so lines are
counted there alone.  `next?` skips what stands between tokens and yields the next token or error,
and goes on after an error.
-/

namespace BraceScript

/-- What a piece of text is. -/
inductive Piece
  /-- A token. -/
  | token (lexeme : Lexeme)
  /-- Text that stands between tokens. -/
  | gap (form : Trivia)
  /-- Text that is wrong. -/
  | fault (cause : SyntaxFault)
deriving Inhabited

namespace Piece

/-- The characters that start a name or a reserved word. -/
def isWordStart (c : Char) : Bool := c.isAlpha || c == '_'

/-- The characters that continue a name or a reserved word. -/
def isWordChar (c : Char) : Bool := c.isAlphanum || c == '_'

/-- The characters of a numeric literal. -/
def isNumeric (c : Char) : Bool := c.isDigit || c == '.' || c == '-'

/-- The characters of a blank run. -/
def isBlank (c : Char) : Bool := c == ' ' || c == '\t' || c == '\r'

/-- Whether a numeric literal starts here: with a digit, a point, or a minus sign before a digit. -/
def startsNumber : Char → List Char → Bool
  | '-', d :: _ => d.isDigit
  | c, _ => c.isDigit || c == '.'

/-- How many characters lie up to the end of the first closer of a comment. -/
def closer? : List Char → Option Nat
  | '*' :: '/' :: _ => some 2
  | _ :: rest => (closer? rest).map (· + 1)
  | [] => none

/-- The number a literal stands for, or the fault that it is none. -/
def ofLiteral (literal : List Char) : Piece :=
  match Number.ofLiteral? literal with
  | some n => token (.number n)
  | none => fault (.invalidNumeric (String.ofList literal))

/-- What starts with a slash and a star, given the text after these two: a whole comment, or an
opener alone if nothing closes it. -/
def ofComment (rest : List Char) : Piece × Nat :=
  match closer? rest with
  | some n => (gap .comment, n + 1)
  | none => (fault .unterminatedComment, 1)

/-- A mark of two characters if there is one, else a mark of one. -/
def ofMark (c : Char) (rest : List Char) : Piece × Nat :=
  match rest.head?.bind (Mark.double? c) with
  | some m => (token (.mark m), 1)
  | none =>
    match Mark.single? c with
    | some m => (token (.mark m), 0)
    | none => (fault (.invalidCharacter c), 0)

/-- What stands at the front of a text, and how many characters after the first belong to it. -/
def scan (c : Char) (rest : List Char) : Piece × Nat :=
  if isWordStart c then
    let tail := rest.takeWhile isWordChar
    (token (.ofWord (String.ofList (c :: tail))), tail.length)
  else if startsNumber c rest then
    let tail := rest.takeWhile isNumeric
    (ofLiteral (c :: tail), tail.length)
  else if c = '\n' then (gap .newline, 0)
  else if isBlank c then (gap .blank, (rest.takeWhile isBlank).length)
  else if c = '/' ∧ rest.head? = some '*' then ofComment rest.tail
  else ofMark c rest

end Piece

/-- A token, or what is wrong in its place. -/
abbrev Item := Except SyntaxError Token

/-- The number of bytes of a text. -/
def byteLength (text : List Char) : Nat := text.foldr (fun c count => c.utf8Size + count) 0

/-- The text still to be cut into tokens, and a count of what was cut off. -/
structure Lexer where
  rest : List Char
  /-- How many bytes were cut off. -/
  offset : Nat
  /-- The line that the rest starts in. -/
  line : Nat
  /-- How many bytes lie before that line. -/
  lineStart : Nat
deriving Inhabited

namespace Lexer

/-- A whole source. -/
def ofSource (source : String) : Lexer := ⟨source.toList, 0, 1, 0⟩

/-- Where the rest starts. -/
def position (l : Lexer) : Position := ⟨l.line, l.offset - l.lineStart + 1⟩

/-- The lexer after the next `count` characters, which lie on the line. -/
def advance (l : Lexer) (count : Nat) : Lexer :=
  { l with rest := l.rest.drop count, offset := l.offset + byteLength (l.rest.take count) }

/-- The lexer after the next `count` characters, with the line feeds among them counted: the line
starts after the last one. -/
def skip (l : Lexer) (count : Nat) : Lexer :=
  if '\n' ∈ l.rest.take count then
    { l.advance count with
      line := l.line + (l.rest.take count).count '\n'
      lineStart := l.offset + byteLength ((l.rest.take count).reverse.dropWhile (· ≠ '\n')) }
  else l.advance count

/-- The lexer after a piece of `count` characters. -/
def pass (l : Lexer) (piece : Piece) (count : Nat) : Lexer :=
  match piece with
  | .gap _ => l.skip count
  | _ => l.advance count

/-- The next item, looking at no more than `count` pieces. -/
def nextWithin : Nat → Lexer → Option (Item × Lexer)
  | 0, _ => none
  | count + 1, l =>
    match l.rest with
    | [] => none
    | c :: rest =>
      let (piece, extent) := Piece.scan c rest
      let after := l.pass piece (extent + 1)
      match piece with
      | .token lexeme => some (.ok ⟨lexeme, l.position⟩, after)
      | .gap _ => nextWithin count after
      | .fault cause => some (.error ⟨cause, l.position⟩, after)

/-- The next token or error, and the lexer after it.  A piece takes at least one character, so the
length of the text bounds the search. -/
def next? (l : Lexer) : Option (Item × Lexer) := nextWithin l.rest.length l

/-- The next items, at most `count` of them. -/
def itemsWithin : Nat → Lexer → List Item
  | 0, _ => []
  | count + 1, l =>
    match l.next? with
    | none => []
    | some (item, after) => item :: itemsWithin count after

/-- All items that the lexer still yields. -/
def items (l : Lexer) : List Item := itemsWithin l.rest.length l

end Lexer

/-- The items of a source. -/
def lex (source : String) : List Item := (Lexer.ofSource source).items

end BraceScript
