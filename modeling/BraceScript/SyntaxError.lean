import BraceScript.Token

/-!
# SyntaxError — what can be wrong with a source

The first three causes are found while the text is cut into tokens, the others while the tokens are
read by the grammar.
-/

namespace BraceScript

/-- What is wrong with a source. -/
inductive SyntaxFault
  /-- A character that starts no token. -/
  | invalidCharacter (c : Char)
  /-- A run of digits, points and minus signs that is no number. -/
  | invalidNumeric (literal : String)
  /-- A comment that is never closed. -/
  | unterminatedComment
  /-- A token where the grammar wants something else. -/
  | unexpectedToken (expected : String) (found : Lexeme)
  /-- A name at the start of a statement that is neither assigned to nor called. -/
  | invalidStatement (found : Lexeme)
  /-- The end of the source where the grammar wants something. -/
  | unexpectedEnd (expected : String)
  /-- A token after the end of the program. -/
  | trailingToken (found : Lexeme)
deriving Inhabited

/-- A fault and its place; for the end of the source, the place of the last token read. -/
structure SyntaxError where
  fault : SyntaxFault
  position : Position
deriving Inhabited

namespace SyntaxError

/-- The wording of a syntax error. -/
def message (e : SyntaxError) : String :=
  let place := e.position.text
  match e.fault with
  | .invalidCharacter c => "Invalid character '" ++ c.toString ++ "' at " ++ place ++ "."
  | .invalidNumeric literal => "Invalid numeric '" ++ literal ++ "' at " ++ place ++ "."
  | .unterminatedComment =>
    "Reaching end of file inside the comment opened at " ++ place ++ "."
  | .unexpectedToken expected found =>
    expected ++ " required but got " ++ found.quoted ++ " at " ++ place ++ "."
  | .invalidStatement found =>
    "Invalid token got: " ++ found.quoted ++ " at " ++ place ++ ", expected '=' or '('."
  | .unexpectedEnd expected =>
    "Reaching end of file: " ++ expected ++ " required after " ++ place ++ "."
  | .trailingToken found =>
    "Invalid content following '\x7d' at the end of the program: " ++ found.quoted ++ " at " ++
      place ++ "."

end SyntaxError

end BraceScript
