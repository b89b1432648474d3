/-!
Finite binary floating-point numbers of 64 bits, as exact data. A number is a sign, a mantissa of at
most 53 bits and a power of two. Every operation computes in the integers and rounds once, to the
nearest number and to the even mantissa on a tie, so no step depends on the machine's arithmetic.
-/

namespace GioForge

def twoTo (n : Nat) : Nat := Nat.pow 2 n

def tenTo (n : Nat) : Nat := Nat.pow 10 n

/-- The number `±mantissa · 2 ^ exponent`. -/
structure Binary64 where
  negative : Bool
  mantissa : Nat
  exponent : Int
  deriving DecidableEq, Inhabited

namespace Binary64

/-- The exponent of the smallest steps between numbers. -/
def leastExponent : Int := -1074

/-- The exponent of the largest steps between numbers. -/
def greatestExponent : Int := 971

def zero (negative : Bool) : Binary64 := ⟨negative, 0, leastExponent⟩

def isZero (x : Binary64) : Bool := x.mantissa = 0

/-- The numerator of the magnitude, over `x.denominator`. -/
def numerator (x : Binary64) : Nat := x.mantissa * twoTo x.exponent.toNat

def denominator (x : Binary64) : Nat := twoTo (-x.exponent).toNat

/-- The quotient rounded to the nearest integer, to the even one on a tie. -/
def roundDiv (num den : Nat) : Nat :=
  let whole := num / den
  let rest := num % den
  if 2 * rest < den then whole
  else if den < 2 * rest then whole + 1
  else whole + whole % 2

/-- The quotient scaled by `2 ^ -exponent`, as a fraction. -/
def scaled (num den : Nat) (exponent : Int) : Nat × Nat :=
  (num * twoTo (-exponent).toNat, den * twoTo exponent.toNat)

/-- The exponent at which the magnitude `num / den` has a mantissa of 53 bits, or the least one. -/
def exponentFor (num den : Nat) : Int :=
  let guess : Int := (num.log2 : Int) - (den.log2 : Int) - 52
  let (n, d) := scaled num den guess
  max leastExponent (if n / d < twoTo 52 then guess - 1 else guess)

/-- The number nearest to `±num / den`; none if it lies beyond the largest. -/
def round? (negative : Bool) (num den : Nat) : Option Binary64 :=
  if num = 0 then some (zero negative)
  else
    let exponent := exponentFor num den
    let (n, d) := scaled num den exponent
    let mantissa := roundDiv n d
    let (mantissa, exponent) :=
      if mantissa = twoTo 53 then (twoTo 52, exponent + 1) else (mantissa, exponent)
    if exponent > greatestExponent then none else some ⟨negative, mantissa, exponent⟩

/-- The number nearest to a natural number; none if it lies beyond the largest. -/
def ofNat? (n : Nat) : Option Binary64 := round? false n 1

def neg (x : Binary64) : Binary64 := { x with negative := !x.negative }

/-- The product, rounded; none on overflow. -/
def mul? (x y : Binary64) : Option Binary64 :=
  round? (x.negative != y.negative) (x.numerator * y.numerator) (x.denominator * y.denominator)

/-- The quotient by a number other than zero, rounded; none on overflow. -/
def div? (x y : Binary64) : Option Binary64 :=
  round? (x.negative != y.negative) (x.numerator * y.denominator) (x.denominator * y.numerator)

/-- The number nearest to `±digits · 10 ^ power`; none if it lies beyond the largest. Powers far
outside the range of the format are settled without computing them. -/
def ofDecimal? (negative : Bool) (digits : Nat) (power : Int) : Option Binary64 :=
  if digits = 0 then some (zero negative)
  else
    let places := ((Nat.toDigits 10 digits).length : Int)
    if places + power > 400 then none
    else if places + power < -400 then some (zero negative)
    else round? negative (digits * tenTo power.toNat) (tenTo (-power).toNat)

end Binary64

end GioForge
