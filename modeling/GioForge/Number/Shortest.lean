import GioForge.Number.Binary64
import GioForge.Text.Digit

/-!
The shortest decimal of a binary floating-point number: the fewest digits that read back as the same
number, and of those the nearest to it. The search looks at one power of ten after the other, from
the largest down, and tests the number's two neighbours on that grid in exact arithmetic.
-/

namespace GioForge.Binary64

/-- Whether `digits · 10 ^ power` rounds to the magnitude of `x`, for `x` other than zero. The reals
that do form an interval around `x`, which contains its ends if the mantissa is even. All three are
compared as multiples of a quarter of the step at `x`. -/
def isReadBack (x : Binary64) (digits : Nat) (power : Int) : Bool :=
  let quarter : Int := x.exponent - 2
  let point := digits * tenTo power.toNat * twoTo (-quarter).toNat
  let unit := twoTo quarter.toNat * tenTo (-power).toNat
  let below := if x.mantissa = twoTo 52 && x.exponent > leastExponent then 1 else 2
  let low := (4 * x.mantissa - below) * unit
  let high := (4 * x.mantissa + 2) * unit
  if x.mantissa % 2 = 0 then low ≤ point && point ≤ high else low < point && point < high

/-- The better of the two neighbours of `x` on the grid of multiples of `10 ^ power`, if one of them
reads back: the nearer, and the even one if both are equally near. -/
def gridPoint? (x : Binary64) (power : Int) : Option Nat :=
  let num := x.numerator * tenTo (-power).toNat
  let den := x.denominator * tenTo power.toNat
  let floor := num / den
  match isReadBack x floor power, isReadBack x (floor + 1) power with
  | true, true => some (roundDiv num den)
  | true, false => some floor
  | false, true => some (floor + 1)
  | false, false => none

def topPower : Int := 309

/-- The shortest digits of `x` and the power of ten they are multiples of. -/
def shortest (x : Binary64) : Nat × Int :=
  if x.isZero then (0, 0)
  else
    ((List.range 700).findSome? fun (i : Nat) =>
      let power := topPower - (i : Int)
      (gridPoint? x power).map fun digits => (digits, power)).getD (0, 0)

def exponentText (e : Int) : List Char :=
  (if e < 0 then '-' else '+') :: Text.decimal e.natAbs

/-- The text of a magnitude. Numbers from `0.00001` up to sixteen digits before the point are
written out, others with one digit before the point and an exponent; a whole number that is written
out ends in `.0`. -/
def layout (digits : List Char) (power : Int) : List Char :=
  let point : Int := digits.length + power
  if 0 ≤ power && point ≤ 16 then
    digits ++ List.replicate power.toNat '0' ++ ['.', '0']
  else if 0 < point && point ≤ 16 then
    digits.take point.toNat ++ '.' :: digits.drop point.toNat
  else if -5 < point && point ≤ 0 then
    '0' :: '.' :: (List.replicate (-point).toNat '0' ++ digits)
  else
    match digits with
    | [d] => d :: 'e' :: exponentText (point - 1)
    | d :: rest => d :: '.' :: (rest ++ 'e' :: exponentText (point - 1))
    | [] => []

/-- The text of a number: its shortest digits, laid out. -/
def text (x : Binary64) : List Char :=
  let magnitude :=
    if x.isZero then ['0', '.', '0']
    else
      let (digits, power) := x.shortest
      layout (Text.decimal digits) power
  if x.negative then '-' :: magnitude else magnitude

end GioForge.Binary64
