import GioForge.Text.Digit

/-!
Dates and times of TOML: a date, a time of day, or both, the latter with or without an offset from
universal time. A moment is kept as the text in which it is written again: always with seconds, even
if they were left out, and with a fraction of a second only if it has a digit other than zero.
-/

namespace GioForge.Toml

/-- Reads a number of exactly `width` digits. -/
def fixedDigits (width : Nat) (cs : List Char) : Option (Nat × List Char) :=
  let digits := cs.take width
  if digits.length = width && digits.all Text.isDigit then
    some (Text.naturalOf digits, cs.drop width)
  else none

def oneOf (allowed : List Char) : List Char → Option (List Char)
  | [] => none
  | c :: rest => if allowed.contains c then some rest else none

def daysIn (year month : Nat) : Nat :=
  if month = 2 then
    if year % 4 = 0 && (year % 100 ≠ 0 || year % 400 = 0) then 29 else 28
  else if month = 4 || month = 6 || month = 9 || month = 11 then 30
  else 31

/-- Reads a date; gives it written again. -/
def date (cs : List Char) : Option (List Char × List Char) := do
  let (year, cs) ← fixedDigits 4 cs
  let cs ← oneOf ['-'] cs
  let (month, cs) ← fixedDigits 2 cs
  let cs ← oneOf ['-'] cs
  let (day, cs) ← fixedDigits 2 cs
  guard (1 ≤ month && month ≤ 12 && 1 ≤ day && day ≤ daysIn year month)
  return (Text.paddedDecimal 4 year ++ '-' :: (Text.paddedDecimal 2 month ++
    '-' :: Text.paddedDecimal 2 day), cs)

/-- Reads a fraction of a second behind its point; gives it written again. Nine places are kept,
zeros at its end are not, and a fraction of which nothing is left has no point either. -/
def secondFraction (cs : List Char) : Option (List Char × List Char) :=
  let digits := cs.takeWhile Text.isDigit
  if digits.isEmpty then none
  else
    let kept := ((digits.take 9).reverse.dropWhile (· == '0')).reverse
    some (if kept.isEmpty then [] else '.' :: kept, cs.dropWhile Text.isDigit)

/-- Reads a time of day; gives it written again. -/
def clock (cs : List Char) : Option (List Char × List Char) := do
  let (hour, cs) ← fixedDigits 2 cs
  let cs ← oneOf [':'] cs
  let (minute, cs) ← fixedDigits 2 cs
  guard (hour ≤ 23 && minute ≤ 59)
  let minutes := Text.paddedDecimal 2 hour ++ ':' :: Text.paddedDecimal 2 minute
  match cs with
  | ':' :: cs =>
      let (second, cs) ← fixedDigits 2 cs
      guard (second ≤ 60)
      let seconds := minutes ++ ':' :: Text.paddedDecimal 2 second
      match cs with
      | '.' :: cs =>
          let (fraction, cs) ← secondFraction cs
          return (seconds ++ fraction, cs)
      | cs => return (seconds, cs)
  | cs => return (minutes ++ [':', '0', '0'], cs)

/-- Reads an offset from universal time, if there is one; gives it written again. -/
def zone (cs : List Char) : Option (List Char × List Char) :=
  match cs with
  | [] => some ([], [])
  | 'Z' :: cs => some (['Z'], cs)
  | 'z' :: cs => some (['Z'], cs)
  | sign :: cs => do
      guard (sign = '+' || sign = '-')
      let (hour, cs) ← fixedDigits 2 cs
      let cs ← oneOf [':'] cs
      let (minute, cs) ← fixedDigits 2 cs
      guard (hour ≤ 23 && minute ≤ 59)
      let sign := if hour = 0 && minute = 0 then '+' else sign
      return (sign :: (Text.paddedDecimal 2 hour ++ ':' :: Text.paddedDecimal 2 minute), cs)

def moment? (cs : List Char) : Option String := do
  match date cs with
  | some (day, []) => return String.ofList day
  | some (day, rest) =>
      let rest ← oneOf ['T', 't', ' '] rest
      let (time, rest) ← clock rest
      let (offset, rest) ← zone rest
      guard rest.isEmpty
      return String.ofList (day ++ 'T' :: (time ++ offset))
  | none =>
      let (time, rest) ← clock cs
      guard rest.isEmpty
      return String.ofList time

end GioForge.Toml
