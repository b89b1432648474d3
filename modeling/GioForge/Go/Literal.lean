import GioForge.Text.Digit

/-!
Interpreted string literals of Go. A text becomes a literal by escaping the characters that may not
stand between the quotes; all else, and so most of Unicode, stands for itself.
-/

namespace GioForge.Go

/-- The ASCII control characters: those below the blank, and DEL. -/
def isControl (c : Char) : Bool :=
  c.toNat < 0x20 || c.toNat == 0x7f

/-- The spelling of one character inside an interpreted string literal. Backslash and quote are
escaped, line feed, carriage return and tab have short forms, and any other control character is
written as one byte in hexadecimal. -/
def escapeChar (c : Char) : List Char :=
  if c = '\\' then ['\\', '\\']
  else if c = '"' then ['\\', '"']
  else if c = '\n' then ['\\', 'n']
  else if c = '\r' then ['\\', 'r']
  else if c = '\t' then ['\\', 't']
  else if isControl c then '\\' :: 'x' :: Text.hexPair c.toNat
  else [c]

/-- What stands between the quotes of the literal for `s`. -/
def escape (s : String) : String :=
  String.ofList (s.toList.flatMap escapeChar)

/-- The complete literal for `s`, quotes included. -/
def quote (s : String) : String :=
  "\"" ++ escape s ++ "\""

end GioForge.Go
