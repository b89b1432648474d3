import GioForge.Text.Digit
import GioForge.Value

/-!
The number a JSON numeral stands for. A numeral without fraction and exponent is a whole number if
it is short enough; the opposite of zero and all longer numerals are binary. A binary number starts
from as many leading digits as fit into 64 bits and is scaled by one rounded power of ten after the
other, so it is close to the decimal and not always the nearest number to it.
-/

namespace GioForge.Json

structure Numeral where
  negative : Bool
  /-- The digits before the point. -/
  whole : List Char
  /-- The digits behind the point; none without a point. -/
  fraction : Option (List Char)
  /-- Whether the exponent has a minus sign, and its digits; none without an exponent. -/
  exponent : Option (Bool × List Char)
  deriving Inhabited

namespace Numeral

/-- Reads digits into `total` as long as it stays within the limit; gives the digits left over. -/
def absorb (limit : Nat) (total : Nat) : List Char → Nat × List Char
  | [] => (total, [])
  | d :: rest =>
      let next := total * 10 + Text.digitValue d
      if next ≤ limit then absorb limit next rest else (total, d :: rest)

/-- The largest exponent that is followed exactly. -/
def exponentLimit : Nat := twoTo 31 - 1

/-- Powers of ten up to this one are rounded once. -/
def topPower : Nat := 308

/-- A power of ten as a binary number; `10 ^ topPower` is the largest asked for. -/
def powerOfTen (n : Nat) : Binary64 :=
  (Binary64.round? false (tenTo n) 1).getD (Binary64.zero false)

/-- Divides by the largest power of ten while the exponent lies below the powers that are rounded
once, and by what is left of it at the end. Zero stays zero at once. -/
def scaleDown (x : Binary64) (exponent : Nat) : Option Binary64 :=
  if exponent ≤ topPower then x.div? (powerOfTen exponent)
  else if x.isZero then some x
  else (x.div? (powerOfTen topPower)).bind fun y => scaleDown y (exponent - topPower)
termination_by exponent
decreasing_by
  simp only [topPower] at *
  omega

/-- `x · 10 ^ exponent`, rounded step by step; none beyond the largest number. -/
def scale (x : Binary64) (exponent : Int) : Option Binary64 :=
  if exponent < 0 then scaleDown x exponent.natAbs
  else if exponent.natAbs ≤ topPower then x.mul? (powerOfTen exponent.natAbs)
  else if x.isZero then some x
  else none

/-- Why a numeral has no number: it is too large. -/
inductive Excess where
  /-- Found when the whole numeral had been read. -/
  | atEnd
  /-- Found in the exponent, after reading so many of its digits. -/
  | inExponent (digits : Nat)
  deriving DecidableEq

def signed (numeral : Numeral) (x : Binary64) : Binary64 :=
  if numeral.negative then x.neg else x

/-- The significand that fits into 64 bits and the power of ten it is scaled by, up to the
exponent. Digits before the point that do not fit count as zeros, those behind it not at all. -/
def significand (numeral : Numeral) : Nat × Int :=
  let (total, rest) := absorb Number.naturalLimit 0 numeral.whole
  match numeral.fraction with
  | none => (total, rest.length)
  | some digits =>
      let (total, left) := absorb Number.naturalLimit total digits
      (total, (rest.length : Int) - ((digits.length : Int) - (left.length : Int)))

def binary (numeral : Numeral) : Except Excess Binary64 :=
  let (total, power) := numeral.significand
  let start := (Binary64.ofNat? total).getD (Binary64.zero false)
  let finish (power : Int) : Except Excess Binary64 :=
    match scale start power with
    | some x => .ok (numeral.signed x)
    | none => .error .atEnd
  match numeral.exponent with
  | none => finish power
  | some (minus, digits) =>
      match absorb exponentLimit 0 digits with
      | (e, []) => finish (if minus then power - e else power + e)
      | (_, left) =>
          if total ≠ 0 && !minus then .error (.inExponent (digits.length - left.length + 1))
          else .ok (numeral.signed (Binary64.zero false))

def number (numeral : Numeral) : Except Excess Number :=
  match numeral.fraction, numeral.exponent with
  | none, none =>
      let n := Text.naturalOf numeral.whole
      if numeral.negative then
        if n ≠ 0 && n ≤ Number.negativeLimit then .ok (.negative n) else numeral.binary.map .binary
      else if n ≤ Number.naturalLimit then .ok (.natural n)
      else numeral.binary.map .binary
  | _, _ => numeral.binary.map .binary

end Numeral

end GioForge.Json
