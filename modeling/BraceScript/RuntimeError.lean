import BraceScript.Value

/-!
# RuntimeError — what can go wrong while a program runs
-/

namespace BraceScript

/-- A value of a kind that cannot be used where it stands. -/
inductive Mismatch
  | condition (kind : Kind)
  | binary (op : BinaryOp) (left right : Kind)
  | unary (op : UnaryOp) (operand : Kind)
  | comparison (kind : Kind)
  | absolute (kind : Kind)
  | summand (kind : Kind)
deriving DecidableEq, Repr

/-- The wording of a mismatch. -/
def Mismatch.text : Mismatch → String
  | condition k => "a '" ++ k.text ++ "' value cannot be used as a condition"
  | binary op l r =>
    "unsupported operand types for " ++ op.text ++ ": '" ++ l.text ++ "' and '" ++ r.text ++ "'"
  | unary op k => "bad operand type for unary " ++ op.text ++ ": '" ++ k.text ++ "'"
  | comparison k => "'" ++ k.text ++ "' is not a number and cannot be compared"
  | absolute k => "bad operand type for abs: '" ++ k.text ++ "'"
  | summand k => "'" ++ k.text ++ "' is not a number and cannot be summed"

/-- What goes wrong at a place of the program. -/
inductive RuntimeFault
  /-- A name that no frame in reach binds. -/
  | unknownName (name : String)
  /-- A call of a value that is no function. -/
  | notCallable (name : String)
  /-- A call of a function of the program with the wrong number of arguments. -/
  | argumentCount (name : String) (required found : Nat)
  /-- A call of a built-in function with the wrong number of arguments. -/
  | builtinArity (builtin : Builtin) (found : Nat)
  /-- A value of the wrong kind. -/
  | typeMismatch (cause : Mismatch)
  /-- A call in an expression that gives no value. -/
  | missingValue (name : String)
  /-- An integer divided by zero. -/
  | divisionByZero
deriving DecidableEq, Repr

/-- A fault and its place, or output that was refused. -/
inductive RuntimeError
  | located (fault : RuntimeFault) (position : Position)
  /-- The sink is full. -/
  | output
deriving DecidableEq, Repr

/-- The classes that errors are reported under. -/
inductive ErrorClass
  | syntaxError
  | nameError
  | typeError
  | zeroDivisionError
  | outputError
  | boundError
deriving DecidableEq, Repr

/-- The name of a class of errors. -/
def ErrorClass.text : ErrorClass → String
  | syntaxError => "SyntaxError"
  | nameError => "NameError"
  | typeError => "TypeError"
  | zeroDivisionError => "ZeroDivisionError"
  | outputError => "IOError"
  | boundError => "BoundError"

/-- The class of a fault; a wrong number of arguments counts as a fault of form. -/
def RuntimeFault.errorClass : RuntimeFault → ErrorClass
  | unknownName _ => .nameError
  | argumentCount _ _ _ => .syntaxError
  | notCallable _ | builtinArity _ _ | typeMismatch _ | missingValue _ => .typeError
  | divisionByZero => .zeroDivisionError

/-- The wording of a fault, without its place. -/
def RuntimeFault.text : RuntimeFault → String
  | unknownName name => "name '" ++ name ++ "' not found"
  | notCallable name => "'" ++ name ++ "' is not callable"
  | argumentCount name required found =>
    "number of formal params should match with real params when calling '" ++ name ++
      s!"', required {required}, but got {found}"
  | builtinArity b found => b.name ++ " requires " ++ b.arity.text ++ s!" but got {found}"
  | typeMismatch cause => cause.text
  | missingValue name => "'" ++ name ++ "' did not return a value"
  | divisionByZero => "division by zero"

namespace RuntimeError

/-- The class of an error. -/
def errorClass : RuntimeError → ErrorClass
  | located fault _ => fault.errorClass
  | output => .outputError

/-- The place of an error, if it has one. -/
def position? : RuntimeError → Option Position
  | located _ p => some p
  | output => none

/-- The wording of an error. -/
def message : RuntimeError → String
  | located fault p => fault.text ++ " at " ++ p.text ++ "."
  | output => "failed to write program output: sink full"

end RuntimeError

end BraceScript
