import BraceScript.Action
import BraceScript.Token.Lexer

/-!
# Feed — reading tokens, with the freedom to put them back

A feed is the tokens that were put back, and the lexer that yields the rest.  A `Rule` reads from a
feed; it gives a result or a syntax error, and in both cases the feed that is left, so what a
failing rule has read stays read.  Every token read is recorded, one that is read again after being
put back as often as it is read.
-/

namespace BraceScript

/-- Tokens that were put back, then what the lexer still yields. -/
structure Feed where
  pending : List Token
  lexer : Lexer
  /-- Where the token read last stands. -/
  lastRead : Position
  /-- All tokens read so far, the latest first. -/
  history : List Token

/-- A reader of tokens. -/
abbrev Rule := Action Feed SyntaxError

namespace Feed

/-- A feed over a whole source. -/
def ofSource (source : String) : Feed := ⟨[], .ofSource source, .start, []⟩

/-- What the feed still holds, whether put back or not yet cut. -/
def items (s : Feed) : List Item := s.pending.map .ok ++ s.lexer.items

/-- A bound on the number of items left. -/
def size (s : Feed) : Nat := s.pending.length + s.lexer.rest.length

/-- The feed with a token noted as read. -/
def note (s : Feed) (t : Token) : Feed :=
  { s with lastRead := t.position, history := t :: s.history }

/-- The next token, none at the end of the source, or the lexer's error. -/
def take (s : Feed) : Except SyntaxError (Option Token) × Feed :=
  match s.pending with
  | t :: rest => (.ok (some t), note { s with pending := rest } t)
  | [] =>
    match s.lexer.next? with
    | none => (.ok none, s)
    | some (.ok t, rest) => (.ok (some t), note { s with lexer := rest } t)
    | some (.error e, rest) => (.error e, { s with lexer := rest })

/-- Puts a token back in front. -/
def putBack (s : Feed) (t : Token) : Feed := { s with pending := t :: s.pending }

end Feed

namespace Rule

/-- Applies a rule to a source from its start. -/
def parse {α : Type} (rule : Rule α) (source : String) : Except SyntaxError α × Feed :=
  rule.run (.ofSource source)

/-- A bound on the number of items left. -/
def remaining : Rule Nat := return (← get).size

/-- Reads a token, if one is left. -/
def read? : Rule (Option Token) := fun s => s.take

/-- Puts a token back. -/
def unread (t : Token) : Rule Unit := modify (·.putBack t)

/-- Fails because the source ends where something is expected. -/
def endOfInput {α : Type} (expected : String) : Rule α := do
  throw ⟨.unexpectedEnd expected, (← get).lastRead⟩

/-- Fails because a token is not what is expected. -/
def unexpected {α : Type} (expected : String) (t : Token) : Rule α :=
  throw ⟨.unexpectedToken expected t.lexeme, t.position⟩

/-- Reads a token; the source must not end here. -/
def read (expected : String) : Rule Token := do
  match ← read? with
  | some t => return t
  | none => endOfInput expected

/-- Reads a token of the class of a lexeme. -/
def require (lexeme : Lexeme) : Rule Token := do
  let t ← read lexeme.quoted
  if t.lexeme.sameClass lexeme then return t else unexpected lexeme.quoted t

/-- Reads a token of the class of a lexeme if it is the next one; else puts back what it read. -/
def accept? (lexeme : Lexeme) : Rule (Option Token) := do
  match ← read? with
  | some t =>
    if t.lexeme.sameClass lexeme then return some t
    else
      unread t
      return none
  | none => return none

/-- Reads a reserved word. -/
def word (k : Keyword) : Rule Token := require (.keyword k)

/-- Reads a mark. -/
def mark (m : Mark) : Rule Token := require (.mark m)

end Rule

end BraceScript
