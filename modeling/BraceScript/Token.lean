import BraceScript.Number
import BraceScript.Position

/-!
# Token — the words of a program

A token is a lexeme and the position of its first character.  The lexemes are the reserved words,
the truth values, numbers, names and marks; the four forms of text that stand between tokens are
counted among them, so that they can be named in messages, but no source yields them.
-/

namespace BraceScript

/-- A reserved word. -/
inductive Keyword
  | kwProgram
  | kwWhile
  | kwDef
  | kwIf
  | kwElse
  | kwElif
  | kwFor
  | kwReturn
  | kwLambda
deriving DecidableEq, Repr

namespace Keyword

/-- All reserved words. -/
def all : List Keyword :=
  [kwProgram, kwWhile, kwDef, kwIf, kwElse, kwElif, kwFor, kwReturn, kwLambda]

/-- The spelling of a reserved word. -/
def text : Keyword → String
  | kwProgram => "PROGRAM"
  | kwWhile => "while"
  | kwDef => "def"
  | kwIf => "if"
  | kwElse => "else"
  | kwElif => "elif"
  | kwFor => "for"
  | kwReturn => "return"
  | kwLambda => "lambda"

end Keyword

/-- An operator or a delimiter. -/
inductive Mark
  | plus
  | minus
  | star
  | slash
  | doubleSlash
  | assign
  | greater
  | less
  | greaterEqual
  | lessEqual
  | equalEqual
  | bangEqual
  | leftParen
  | rightParen
  | comma
  | leftBrace
  | rightBrace
  | colon
deriving DecidableEq, Repr

namespace Mark

/-- The spelling of a mark. -/
def text : Mark → String
  | plus => "+"
  | minus => "-"
  | star => "*"
  | slash => "/"
  | doubleSlash => "//"
  | assign => "="
  | greater => ">"
  | less => "<"
  | greaterEqual => ">="
  | lessEqual => "<="
  | equalEqual => "=="
  | bangEqual => "!="
  | leftParen => "("
  | rightParen => ")"
  | comma => ","
  | leftBrace => "\x7b"
  | rightBrace => "\x7d"
  | colon => ":"

/-- The mark spelled by one character. -/
def single? : Char → Option Mark
  | '+' => some plus
  | '-' => some minus
  | '*' => some star
  | '/' => some slash
  | '=' => some assign
  | '>' => some greater
  | '<' => some less
  | '(' => some leftParen
  | ')' => some rightParen
  | ',' => some comma
  | '\x7b' => some leftBrace
  | '\x7d' => some rightBrace
  | ':' => some colon
  | _ => none

/-- The mark spelled by two characters. -/
def double? : Char → Char → Option Mark
  | '/', '/' => some doubleSlash
  | '>', '=' => some greaterEqual
  | '<', '=' => some lessEqual
  | '=', '=' => some equalEqual
  | '!', '=' => some bangEqual
  | _, _ => none

end Mark

/-- A form of text that stands between tokens. -/
inductive Trivia
  | comment
  | openComment
  | newline
  | blank
deriving DecidableEq, Repr

/-- The name of a form of trivia in messages. -/
def Trivia.text : Trivia → String
  | comment => "/* ... */"
  | openComment => "/*"
  | newline => "\\n"
  | blank => "whitespace"

/-- What a token is, apart from its place. -/
inductive Lexeme
  | keyword (word : Keyword)
  | bool (value : Bool)
  | number (value : Number)
  | identifier (name : String)
  | mark (form : Mark)
  | trivia (form : Trivia)
deriving Inhabited

namespace Lexeme

/-- The spelling of a truth value. -/
def boolText (b : Bool) : String := if b then "True" else "False"

/-- The text of a lexeme. -/
def text : Lexeme → String
  | keyword word => word.text
  | bool value => boolText value
  | number value => value.text
  | identifier name => name
  | mark form => form.text
  | trivia form => form.text

/-- The text in quotes, as messages show it. -/
def quoted (l : Lexeme) : String := "'" ++ l.text ++ "'"

/-- Whether two lexemes are the same up to what they carry: any two numbers, any two names and any
two truth values are. -/
def sameClass : Lexeme → Lexeme → Bool
  | keyword a, keyword b => a == b
  | bool _, bool _ => true
  | number _, number _ => true
  | identifier _, identifier _ => true
  | mark a, mark b => a == b
  | trivia a, trivia b => a == b
  | _, _ => false

/-- The lexeme of a word: a reserved word, a truth value, or a name. -/
def ofWord (word : String) : Lexeme :=
  match Keyword.all.find? fun k => k.text = word with
  | some k => keyword k
  | none =>
    if word = boolText true then bool true
    else if word = boolText false then bool false
    else identifier word

end Lexeme

/-- A word of a program and where it starts. -/
structure Token where
  lexeme : Lexeme
  position : Position
deriving Inhabited

/-- The wording of a token in events. -/
def Token.text (t : Token) : String := t.lexeme.quoted ++ " at " ++ t.position.text

end BraceScript
