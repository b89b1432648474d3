/-!
Digits of the bases this library reads and writes: ten, and sixteen in lower case when written and
in either case when read.
-/

namespace GioForge.Text

/-- The decimal digits `0` to `9`. -/
def isDigit (c : Char) : Bool :=
  '0' ≤ c && c ≤ '9'

/-- The number a decimal digit stands for; zero for any other character. -/
def digitValue (c : Char) : Nat :=
  if isDigit c then c.toNat - '0'.toNat else 0

def naturalOf (digits : List Char) : Nat :=
  digits.foldl (fun total c => total * 10 + digitValue c) 0

def hexValue? (c : Char) : Option Nat :=
  if isDigit c then some (c.toNat - '0'.toNat)
  else if 'a' ≤ c && c ≤ 'f' then some (c.toNat - 'a'.toNat + 10)
  else if 'A' ≤ c && c ≤ 'F' then some (c.toNat - 'A'.toNat + 10)
  else none

def hexNaturalOf? (digits : List Char) : Option Nat :=
  digits.foldlM (fun total c => (hexValue? c).map (total * 16 + ·)) 0

def hexDigit (n : Nat) : Char :=
  if n < 10 then Char.ofNat ('0'.toNat + n) else Char.ofNat ('a'.toNat + (n - 10))

def hexPair (n : Nat) : List Char :=
  [hexDigit (n / 16 % 16), hexDigit (n % 16)]

def decimal (n : Nat) : List Char :=
  Nat.toDigits 10 n

def decimalText (n : Nat) : String :=
  String.ofList (decimal n)

/-- A natural number in decimal, filled up with zeros on the left to at least `width` digits. -/
def paddedDecimal (width n : Nat) : List Char :=
  let digits := decimal n
  List.replicate (width - digits.length) '0' ++ digits

end GioForge.Text
