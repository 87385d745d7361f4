/-!
# Decimal/Binary64 — doubles as exact integers times powers of two

`Binary64.decode` opens the bits of a double into a sign and an exact magnitude
`mantissa * 2 ^ exponent`.  `Binary64.nearest` goes the other way: the double nearest to a fraction
of natural numbers, a tie going to the even neighbour.  Both are plain integer arithmetic.
-/

namespace BraceScript.Decimal

/-- The power of two with this exponent, or one if the exponent is negative.  To compare two numbers
each side is multiplied by such powers, so that only natural numbers remain. -/
def twoPow (exponent : Int) : Nat := Nat.pow 2 exponent.toNat

/-- The power of ten with this exponent, or one if the exponent is negative. -/
def tenPow (exponent : Int) : Nat := Nat.pow 10 exponent.toNat

/-- What the bits of a double stand for. -/
inductive Binary64
  /-- Not a number. -/
  | nan
  /-- An infinity. -/
  | infinite (negative : Bool)
  /-- The number of magnitude `mantissa * 2 ^ exponent`; a zero has mantissa zero. -/
  | finite (negative : Bool) (mantissa : Nat) (exponent : Int)
deriving DecidableEq, Repr

namespace Binary64

/-- The exponent of the smallest positive double. -/
def leastExponent : Int := -1074

/-- The lowest mantissa of a double that is not subnormal. -/
def hiddenBit : Nat := twoPow 52

/-- The bits of positive infinity. -/
def infinityBits : Nat := 2047 * hiddenBit

/-- The bit of the sign. -/
def signBit : Nat := twoPow 63

/-- Opens the bits of a double. -/
def decode (bits : Nat) : Binary64 :=
  let negative := decide (signBit ≤ bits)
  let field := bits / hiddenBit % 2048
  let fraction := bits % hiddenBit
  if field = 2047 then
    if fraction = 0 then .infinite negative else .nan
  else if field = 0 then .finite negative fraction leastExponent
  else .finite negative (hiddenBit + fraction) (leastExponent + (field - 1 : Nat))

/-- The exponent of the highest power of two that is at most `num / den`. -/
def floorLog2 (num den : Nat) : Int :=
  let guess : Int := (num.log2 : Int) - den.log2
  if den * twoPow guess ≤ num * twoPow (-guess) then guess else guess - 1

/-- The quotient rounded to the nearest natural number, a tie going to the even one. -/
def roundDiv (num den : Nat) : Nat :=
  let quotient := num / den
  let twice := 2 * (num % den)
  if twice < den then quotient
  else if den < twice then quotient + 1
  else quotient + quotient % 2

/-- The bits of the double nearest to `num / den`, a tie going to the even mantissa; what is too
large becomes infinity.  Mantissa and exponent share one formula, because a mantissa that rounds up
to the next power of two carries into the exponent's field. -/
def nearest (num den : Nat) : Nat :=
  if num = 0 then 0
  else
    let exponent := max (floorLog2 num den - 52) leastExponent
    let mantissa := roundDiv (num * twoPow (-exponent)) (den * twoPow exponent)
    min infinityBits ((exponent - leastExponent).toNat * hiddenBit + mantissa)

/-- A double from its sign and the bits of its magnitude. -/
def toFloat (negative : Bool) (magnitude : Nat) : Float :=
  Float.ofBits (UInt64.ofNat (if negative then signBit + magnitude else magnitude))

/-- The double nearest to an integer. -/
def ofInt (n : Int) : Float := toFloat (n < 0) (nearest n.natAbs 1)

end Binary64

end BraceScript.Decimal
