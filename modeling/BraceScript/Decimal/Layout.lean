import BraceScript.Decimal.Shortest

/-!
# Decimal/Layout — how a double is written

The digits come from `Decimal.shortest`; a `Layout` decides where the point stands and when an
exponent is written instead.
-/

namespace BraceScript.Decimal

/-- The choices in the text of a double. -/
structure Layout where
  /-- The least power of ten of a leading digit that is written without an exponent. -/
  leastPlain : Int
  /-- The first power of ten of a leading digit that is written with an exponent again. -/
  firstScientific : Int
  /-- What stands between the digits and the exponent. -/
  exponentMark : String
  /-- The text of an infinity, after its sign. -/
  infinity : String
  /-- The text of what is not a number; it has no sign. -/
  notANumber : String

/-- Doubles are written plainly from `0.0001` up to `10 ^ 16`, always with a fraction. -/
def layout : Layout where
  leastPlain := -4
  firstScientific := 16
  exponentMark := "e"
  infinity := "inf"
  notANumber := "NaN"

/-- The decimal digits of a natural number, the highest first. -/
def digitChars (n : Nat) : List Char := Nat.toDigits 10 n

/-- The text of an integer: its digits, after a minus sign if it is negative. -/
def integerText (n : Int) : String :=
  if n < 0 then String.ofList ('-' :: digitChars n.natAbs) else String.ofList (digitChars n.natAbs)

/-- A run of `count` zeros. -/
def zeros (count : Int) : List Char := List.replicate count.toNat '0'

/-- A decimal with a point and at least one digit on each side of it. -/
def plain (d : Decimal) : List Char :=
  let cs := digitChars d.digits
  let whole : Int := cs.length + d.exponent
  if 0 ≤ d.exponent then cs ++ zeros d.exponent ++ ['.', '0']
  else if 0 < whole then cs.take whole.toNat ++ '.' :: cs.drop whole.toNat
  else '0' :: '.' :: (zeros (-whole) ++ cs)

/-- A decimal with one digit before the point, and a point only if a digit follows it. -/
def scientific (l : Layout) (d : Decimal) : List Char :=
  let cs := digitChars d.digits
  let fraction := cs.drop 1
  let point := if fraction.isEmpty then [] else '.' :: fraction
  cs.take 1 ++ point ++ l.exponentMark.toList ++ (integerText (cs.length + d.exponent - 1)).toList

/-- The text of a magnitude: positional or scientific, as the layout decides. -/
def magnitude (l : Layout) (mantissa : Nat) (exponent : Int) : List Char :=
  if mantissa = 0 then ['0', '.', '0']
  else
    let d := shortest mantissa exponent
    let leading : Int := (digitChars d.digits).length + d.exponent - 1
    if l.leastPlain ≤ leading && leading < l.firstScientific then plain d else scientific l d

/-- A minus sign before the text of a negative double, a negative zero included. -/
def signed (negative : Bool) (text : String) : String := if negative then "-" ++ text else text

/-- The text of a double. -/
def text (x : Float) : String :=
  match Binary64.decode x.toBits.toNat with
  | .nan => layout.notANumber
  | .infinite negative => signed negative layout.infinity
  | .finite negative mantissa exponent =>
    signed negative (String.ofList (magnitude layout mantissa exponent))

end BraceScript.Decimal
