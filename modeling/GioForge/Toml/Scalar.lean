import GioForge.Number.Binary64
import GioForge.Toml.Moment

/-!
Values of TOML that are written without quotes or brackets: truth values, whole numbers in four
bases, numbers with a fraction or an exponent, the numbers that are none, and moments.

A number is recognised by its form and gets its value afterwards. A number of good form may still
have no value, such as a power of ten too large for any binary number; a text may hold it as long as
nobody looks at it.
-/

namespace GioForge.Toml

inductive Scalar where
  | bool (b : Bool)
  | integer (n : Int)
  | binary (x : Binary64)
  /-- Infinity and what is not a number. -/
  | unbounded
  /-- A number of good form that has no value. -/
  | valueless
  | moment (text : String)
  deriving DecidableEq

def signOf : List Char → Bool × List Char
  | '+' :: rest => (false, rest)
  | '-' :: rest => (true, rest)
  | cs => (false, cs)

/-- Whether each underscore stands between two digits. `before` says that a digit stands in front of
the characters. -/
def underscoresFit (isDigit : Char → Bool) (before : Bool) : List Char → Bool
  | [] => true
  | c :: rest =>
      if c = '_' then before && rest.head?.any isDigit && underscoresFit isDigit false rest
      else underscoresFit isDigit (isDigit c) rest

def withoutUnderscores (cs : List Char) : List Char :=
  cs.filter (· != '_')

/-- The digits at the start, without the underscores between them, and what stands behind them. -/
def digitRun (cs : List Char) : List Char × List Char :=
  let isPart (c : Char) := Text.isDigit c || c == '_'
  (withoutUnderscores (cs.takeWhile isPart), cs.dropWhile isPart)

def isHexDigit (c : Char) : Bool :=
  (Text.hexValue? c).isSome

def signedInteger (negative : Bool) (digits : List Char) : Scalar :=
  let n := Int.ofNat (Text.naturalOf digits)
  .integer (if negative then -n else n)

/-- A whole number in base two, eight or sixteen, behind its two characters of introduction. Without
digits it has no value. -/
def basedInteger? (base : Nat) (cs : List Char) : Option Scalar :=
  let isDigit (c : Char) := (Text.hexValue? c).any (· < base)
  let digits := withoutUnderscores cs
  if digits.all isDigit && underscoresFit isDigit false cs then
    if digits.isEmpty then some .valueless
    else
      some (.integer (Int.ofNat
        (digits.foldl (fun total c => total * base + (Text.hexValue? c).getD 0) 0)))
  else none

/-- A whole number with underscores, the first of them behind the first run of digits. Where its
underscores stand is its form; whether all of its digits are decimal is a question of its value. -/
def dividedInteger? (cs : List Char) : Option Scalar :=
  let (negative, magnitude) := signOf cs
  let digits := withoutUnderscores magnitude
  if magnitude.head? = some '0' || !underscoresFit isHexDigit false magnitude then none
  else if digits.all Text.isDigit then some (signedInteger negative digits)
  else some .valueless

def isExponentMark (c : Char) : Bool :=
  c == 'e' || c == 'E'

/-- The digits behind a point, if there is one, and what stands behind them. -/
def fraction? : List Char → Option (List Char × List Char)
  | '.' :: rest =>
      let (digits, rest) := digitRun rest
      if digits.isEmpty then none else some (digits, rest)
  | cs => some ([], cs)

/-- An exponent, zero if there is none; nothing stands behind it. -/
def exponent? : List Char → Option Int
  | [] => some 0
  | c :: rest =>
      let (negative, rest) := signOf rest
      let (digits, rest) := digitRun rest
      if isExponentMark c && !digits.isEmpty && rest.isEmpty then
        let n := Int.ofNat (Text.naturalOf digits)
        some (if negative then -n else n)
      else none

/-- A number with a fraction or an exponent: the nearest binary number. It has no value if it is too
large for one. -/
def binary? (cs : List Char) : Option Scalar := do
  let (negative, magnitude) := signOf cs
  let (whole, rest) := digitRun magnitude
  guard (!whole.isEmpty && !(magnitude.head? = some '0' && 1 < whole.length))
  let (fraction, rest) ← fraction? rest
  let exponent ← exponent? rest
  guard (underscoresFit Text.isDigit false magnitude)
  match Binary64.ofDecimal? negative (Text.naturalOf (whole ++ fraction))
      (exponent - fraction.length) with
  | some x => return .binary x
  | none => return .valueless

/-- A number or a moment. What stands behind the first run of digits decides what it is; a sign or a
zero in front of other digits makes fewer forms good. -/
def numeral? (cs : List Char) : Option Scalar :=
  match cs with
  | '0' :: 'x' :: rest => basedInteger? 16 rest
  | '0' :: 'o' :: rest => basedInteger? 8 rest
  | '0' :: 'b' :: rest => basedInteger? 2 rest
  | _ =>
      let (negative, magnitude) := signOf cs
      let digits := magnitude.takeWhile Text.isDigit
      match magnitude.dropWhile Text.isDigit with
      | [] =>
          if digits.isEmpty || (digits.head? = some '0' && 1 < digits.length) then none
          else some (signedInteger negative digits)
      | c :: rest =>
          if c = '-' || c = ':' then (moment? cs).map .moment
          else if (c :: rest).any (fun d => d == '.' || isExponentMark d) then binary? cs
          else if c = '_' then dividedInteger? cs
          else none

def isUnbounded (cs : List Char) : Bool :=
  let magnitude := (signOf cs).2
  magnitude == "inf".toList || magnitude == "nan".toList

def scalar? (cs : List Char) : Option Scalar :=
  if cs = "true".toList then some (.bool true)
  else if cs = "false".toList then some (.bool false)
  else if isUnbounded cs then some .unbounded
  else numeral? cs

/-- The characters that end a value without quotes or brackets. A quote is none of them: it has a
meaning only where a value begins. -/
def isScalarEnd (c : Char) : Bool :=
  c == ' ' || c == '\t' || c == '\r' || c == '\n' || c == '#' || c == '=' || c == ',' ||
    c == '[' || c == ']' || c == '\x7b' || c == '\x7d'

def isScalarChar (c : Char) : Bool :=
  !isScalarEnd c

/-- The run of characters that makes up a value: a blank belongs to it between a date and a time. -/
def scalarExtent (cs : List Char) : List Char × List Char :=
  let run := cs.takeWhile isScalarChar
  let rest := cs.dropWhile isScalarChar
  match rest with
  | ' ' :: d :: tail =>
      if Text.isDigit d && (date run).any (fun r => r.2.isEmpty) then
        (run ++ ' ' :: (d :: tail).takeWhile isScalarChar, (d :: tail).dropWhile isScalarChar)
      else (run, rest)
  | _ => (run, rest)

def scalar (cs : List Char) : Option (Scalar × List Char) :=
  let (run, rest) := scalarExtent cs
  (scalar? run).map fun s => (s, rest)

end GioForge.Toml
