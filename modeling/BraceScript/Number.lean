import BraceScript.Decimal.Layout
import BraceScript.Decimal.Reader

/-!
# Number — the two kinds of number

A number is a 64-bit signed integer or a double.  `Number.ofLiteral?` classifies a numeric literal:
an integer if it is written without a point and fits, a double if it is any other decimal.
-/

namespace BraceScript

/-- A number of the language. -/
inductive Number
  | int (n : Int64)
  | float (x : Float)
deriving Inhabited

namespace Number

/-- The number as a double; an integer is rounded to the nearest one. -/
def toFloat : Number → Float
  | int n => Decimal.Binary64.ofInt n.toInt
  | float x => x

/-- The text of a number. -/
def text : Number → String
  | int n => Decimal.integerText n.toInt
  | float x => Decimal.text x

/-- Whether two numbers are of one kind and equal; doubles compare as numbers, so a zero equals a
negative zero and what is not a number equals nothing. -/
def same : Number → Number → Bool
  | int a, int b => a == b
  | float a, float b => a == b
  | _, _ => false

/-- The integers that fit. -/
def fits (n : Int) : Bool := Int64.minValue.toInt ≤ n && n ≤ Int64.maxValue.toInt

/-- Reads an optional minus sign and digits alone as an integer, if it fits. -/
def integer? (cs : List Char) : Option Int64 :=
  let (negative, digits) := Decimal.splitMinus cs
  if digits.isEmpty || !digits.all Char.isDigit then none
  else
    let magnitude : Int := Decimal.digitsValue digits
    let n := if negative then -magnitude else magnitude
    if fits n then some (Int64.ofInt n) else none

/-- The number that a numeric literal stands for: an integer if it can be one, else a double. -/
def ofLiteral? (cs : List Char) : Option Number :=
  match integer? cs with
  | some n => some (int n)
  | none => (Decimal.plain? cs).map float

end Number

end BraceScript
