/-!
# Builtin — the functions every program starts with

This module names them and says how many arguments a call may give; `Builtin.Apply` says what they
do.
-/

namespace BraceScript

/-- How many arguments a call may give. -/
inductive Arity
  | any
  | atLeast (n : Nat)
  | exactly (n : Nat)
deriving DecidableEq, Repr

namespace Arity

/-- Whether a number of arguments is allowed. -/
def allows : Arity → Nat → Bool
  | any, _ => true
  | atLeast n, count => n ≤ count
  | exactly n, count => count = n

/-- A number of arguments in words. -/
def counted (n : Nat) : String := if n = 1 then s!"{n} argument" else s!"{n} arguments"

/-- The wording of an arity. -/
def text : Arity → String
  | any => "any number of arguments"
  | atLeast n => "at least " ++ counted n
  | exactly n => "exactly " ++ counted n

end Arity

/-- A function every program starts with. -/
inductive Builtin
  | print
  | min
  | max
  | abs
  | sum
deriving DecidableEq, Repr

namespace Builtin

/-- All of them. -/
def all : List Builtin := [print, min, max, abs, sum]

/-- The name it is bound to. -/
def name : Builtin → String
  | print => "print"
  | min => "min"
  | max => "max"
  | abs => "abs"
  | sum => "sum"

/-- How many arguments it takes. -/
def arity : Builtin → Arity
  | print => .any
  | min => .atLeast 1
  | max => .atLeast 1
  | abs => .exactly 1
  | sum => .atLeast 1

/-- The function of a name. -/
def ofName? (name : String) : Option Builtin := all.find? fun b => b.name = name

end Builtin

end BraceScript
