import BraceScript.Operator

/-!
# Tree — programs as trees

Each node keeps the position of the token that messages point to: an operator, a name, a literal, or
the word that returns a value.
-/

namespace BraceScript

/-- A name as it is written at one place. -/
structure Name where
  text : String
  position : Position
deriving DecidableEq, Repr, Inhabited

/-- An expression. -/
inductive Expr
  | number (value : Number) (position : Position)
  | bool (value : Bool) (position : Position)
  | var (name : Name)
  | unary (op : UnaryOp) (position : Position) (operand : Expr)
  | binary (op : BinaryOp) (position : Position) (left right : Expr)
  | call (callee : Name) (args : List Expr)
deriving Inhabited

/-- A call as a construct of its own. -/
structure Call where
  callee : Name
  args : List Expr
deriving Inhabited

/-- The place that messages about an expression point to. -/
def Expr.position : Expr → Position
  | number _ p => p
  | bool _ p => p
  | var name => name.position
  | unary _ p _ => p
  | binary _ p _ _ => p
  | call callee _ => callee.position

/-- A statement. -/
inductive Statement
  /-- Binds a name to the value of an expression. -/
  | assign (target : Name) (value : Expr)
  /-- Binds a name to a function without one of its own; it takes the name of its target. -/
  | lambda (target : Name) (params : List Name) (body : List Statement)
  /-- Binds a name to a function. -/
  | define (name : Name) (params : List Name) (body : List Statement)
  /-- Calls a function; the value it may give is the value of the statement. -/
  | call (callee : Name) (args : List Expr)
  /-- Runs one of two blocks. -/
  | branch (condition : Expr) (yes no : List Statement)
  /-- Runs a block as long as a condition holds. -/
  | loop (condition : Expr) (body : List Statement)
  /-- Has the value of an expression; it does not leave the block. -/
  | result (position : Position) (value : Expr)
deriving Inhabited

/-- A sequence of statements in braces. -/
abbrev Block := List Statement

/-- A named program. -/
structure Program where
  name : Name
  body : Block
deriving Inhabited

/-- A function of the program: the name it was declared with, its parameters and its body. -/
structure Routine where
  name : Name
  params : List Name
  body : Block
deriving Inhabited

end BraceScript
