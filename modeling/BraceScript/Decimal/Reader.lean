import BraceScript.Decimal.Binary64

/-!
# Decimal/Reader — reading decimal text as a double

`Decimal.plain?` reads an optional minus sign and digits with at most one point; `Decimal.float?`
also takes a leading plus sign, an exponent, and the names of the values that have no digits.  Both
give the nearest double.
-/

namespace BraceScript.Decimal

/-- The value of a run of decimal digits. -/
def digitsValue (cs : List Char) : Nat := cs.foldl (fun n c => 10 * n + (c.toNat - '0'.toNat)) 0

/-- Splits a sign off a text; true stands for minus. -/
def splitMinus : List Char → Bool × List Char
  | '-' :: rest => (true, rest)
  | cs => (false, cs)

/-- Digits with at most one point among them, at least one digit in all: the value is the first
number divided by ten to the power of the second. -/
def pointed? (cs : List Char) : Option (Nat × Nat) :=
  let whole := cs.takeWhile Char.isDigit
  match cs.dropWhile Char.isDigit with
  | [] => if whole.isEmpty then none else some (digitsValue whole, 0)
  | '.' :: fraction =>
    if fraction.all Char.isDigit && !(whole.isEmpty && fraction.isEmpty) then
      some (digitsValue (whole ++ fraction), fraction.length)
    else none
  | _ => none

/-- The magnitude bits of the double nearest to `mantissa * 10 ^ exponent`.  Far outside the range
of doubles the answer needs no arithmetic. -/
def scaled (mantissa : Nat) (exponent : Int) : Nat :=
  let leading : Int := (Nat.log2 mantissa : Int) * 30103 / 100000 + exponent
  if mantissa = 0 || leading < -400 then 0
  else if 400 < leading then Binary64.infinityBits
  else Binary64.nearest (mantissa * tenPow exponent) (tenPow (-exponent))

/-- Reads an optional minus sign and digits with at most one point. -/
def plain? (cs : List Char) : Option Float :=
  let (negative, body) := splitMinus cs
  (pointed? body).map fun (digits, places) => Binary64.toFloat negative (scaled digits (-places))

/-- Reads an exponent: an optional sign and at least one digit. -/
def exponent? (cs : List Char) : Option Int :=
  let (negative, digits) := match cs with
    | '+' :: rest => (false, rest)
    | other => splitMinus other
  if digits.isEmpty || !digits.all Char.isDigit then none
  else
    let n : Int := digitsValue digits
    some (if negative then -n else n)

/-- Reads an unsigned magnitude: a name, or digits with an optional exponent. -/
def magnitude? (cs : List Char) : Option Nat :=
  let word := String.ofList (cs.map Char.toLower)
  if word = "inf" || word = "infinity" then some Binary64.infinityBits
  else if word = "nan" then some (Binary64.infinityBits + twoPow 51)
  else
    let front := cs.takeWhile fun c => c != 'e' && c != 'E'
    match pointed? front, cs.drop front.length with
    | some (digits, places), [] => some (scaled digits (-places))
    | some (digits, places), _ :: rest =>
      (exponent? rest).map fun e => scaled digits (e - places)
    | none, _ => none

/-- Reads a double in plain or scientific notation, or by name. -/
def float? (cs : List Char) : Option Float :=
  let (negative, body) := match cs with
    | '+' :: rest => (false, rest)
    | other => splitMinus other
  (magnitude? body).map (Binary64.toFloat negative)

end BraceScript.Decimal
