import BraceScript.RuntimeError

/-!
# Value/Arithmetic — what the operators compute

Integers wrap around at 64 bits.  An operation on two integers stays among the integers, any other
is done on doubles; division by `//` is always done on doubles, and division of integers by `/` goes
toward zero.
-/

namespace BraceScript

/-- Applies one function to two integers, and another to any other pair as doubles. -/
def Number.combine {α : Type} (onInt : Int64 → Int64 → α) (onFloat : Float → Float → α) :
    Number → Number → α
  | .int a, .int b => onInt a b
  | a, b => onFloat a.toFloat b.toFloat

/-- Arithmetic that stays among the integers where it can. -/
def Number.arithmetic (onInt : Int64 → Int64 → Int64) (onFloat : Float → Float → Float)
    (a b : Number) : Value :=
  Number.combine (fun x y => .int (onInt x y)) (fun x y => .float (onFloat x y)) a b

/-- A comparison, exact on integers. -/
def Number.compare (onInt : Int64 → Int64 → Bool) (onFloat : Float → Float → Bool)
    (a b : Number) : Value :=
  .bool (Number.combine onInt onFloat a b)

/-- Division that stays among the integers where it can; none if an integer is divided by zero. -/
def Number.div? (a b : Number) : Option Value :=
  Number.combine (fun x y => if y = 0 then none else some (.int (x / y)))
    (fun x y => some (.float (x / y))) a b

/-- What an operator computes from two numbers; none if an integer is divided by zero. -/
def BinaryOp.onNumbers? : BinaryOp → Number → Number → Option Value
  | .add, a, b => some (Number.arithmetic (· + ·) (· + ·) a b)
  | .sub, a, b => some (Number.arithmetic (· - ·) (· - ·) a b)
  | .mul, a, b => some (Number.arithmetic (· * ·) (· * ·) a b)
  | .div, a, b => Number.div? a b
  | .trueDiv, a, b => some (.float (a.toFloat / b.toFloat))
  | .greater, a, b => some (Number.compare (fun x y => x > y) (fun x y => x > y) a b)
  | .less, a, b => some (Number.compare (fun x y => x < y) (fun x y => x < y) a b)
  | .greaterEqual, a, b => some (Number.compare (fun x y => x ≥ y) (fun x y => x ≥ y) a b)
  | .lessEqual, a, b => some (Number.compare (fun x y => x ≤ y) (fun x y => x ≤ y) a b)
  | .equal, a, b => some (Number.compare (· == ·) (· == ·) a b)
  | .notEqual, a, b => some (Number.compare (· != ·) (· != ·) a b)

/-- What an operator computes from two values, at a place of the program. -/
def BinaryOp.apply (op : BinaryOp) (left right : Value) (p : Position) :
    Except RuntimeError Value :=
  match left.number?, right.number? with
  | some a, some b =>
    match op.onNumbers? a b with
    | some v => .ok v
    | none => .error (.located .divisionByZero p)
  | _, _ => .error (.located (.typeMismatch (.binary op left.kind right.kind)) p)

/-- What a sign makes of a number. -/
def UnaryOp.onNumber : UnaryOp → Number → Number
  | .plus, a => a
  | .minus, .int n => .int (-n)
  | .minus, .float x => .float (-x)

/-- What a sign makes of a value, at a place of the program. -/
def UnaryOp.apply (op : UnaryOp) (operand : Value) (p : Position) : Except RuntimeError Value :=
  match operand.number? with
  | some a => .ok (op.onNumber a).toValue
  | none => .error (.located (.typeMismatch (.unary op operand.kind)) p)

/-- Whether a value fulfils a condition that stands at a place of the program. -/
def Value.condition (v : Value) (p : Position) : Except RuntimeError Bool :=
  match v.truth? with
  | some b => .ok b
  | none => .error (.located (.typeMismatch (.condition v.kind)) p)

end BraceScript
