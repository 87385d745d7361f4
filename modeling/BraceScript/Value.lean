import BraceScript.Builtin
import BraceScript.Tree.Equality

/-!
# Value — what expressions compute

A value is a number, a truth value, a function of the program, a built-in function, or a program.
Numbers and truth values take part in arithmetic, a truth value as one or zero.
-/

namespace BraceScript

/-- The kinds of value. -/
inductive Kind
  | int
  | float
  | bool
  | function
  | lambda
  | builtin
  | program
deriving DecidableEq, Repr

/-- The name of a kind in messages. -/
def Kind.text : Kind → String
  | int => "int"
  | float => "float"
  | bool => "bool"
  | function => "function"
  | lambda => "lambda"
  | builtin => "builtin_function"
  | program => "program"

/-- A value. -/
inductive Value
  | int (n : Int64)
  | float (x : Float)
  | bool (b : Bool)
  | function (routine : Routine)
  | lambda (routine : Routine)
  | builtin (b : Builtin)
  | program (name : String)
deriving Inhabited

/-- A number as a value. -/
def Number.toValue : Number → Value
  | int n => .int n
  | float x => .float x

namespace Value

/-- The kind of a value. -/
def kind : Value → Kind
  | int _ => .int
  | float _ => .float
  | bool _ => .bool
  | function _ => .function
  | lambda _ => .lambda
  | builtin _ => .builtin
  | program _ => .program

/-- The text of a value. -/
def text : Value → String
  | int n => (Number.int n).text
  | float x => (Number.float x).text
  | bool b => Lexeme.boolText b
  | function r => "<function " ++ r.name.text ++ ">"
  | lambda r => "<lambda " ++ r.name.text ++ ">"
  | builtin b => "<built-in function " ++ b.name ++ ">"
  | program name => "<program " ++ name ++ ">"

/-- The number that a value stands for in arithmetic. -/
def number? : Value → Option Number
  | int n => some (.int n)
  | float x => some (.float x)
  | bool b => some (.int (if b then 1 else 0))
  | _ => none

/-- Whether a value counts as true; functions and programs do not count either way. -/
def truth? : Value → Option Bool
  | bool b => some b
  | int n => some (n != 0)
  | float x => some (x != 0)
  | _ => none

/-- Whether two values are of one kind and the same. -/
def same : Value → Value → Bool
  | int a, int b => a == b
  | float a, float b => a == b
  | bool a, bool b => a == b
  | function a, function b => a.same b
  | lambda a, lambda b => a.same b
  | builtin a, builtin b => a == b
  | program a, program b => a == b
  | _, _ => false

end Value

end BraceScript
