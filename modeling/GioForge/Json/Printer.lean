import GioForge.Value
import GioForge.Number.Shortest

/-!
Writing values as JSON, in one line or spread over several. Entries of an object come in the order
in which the object lists them.
-/

namespace GioForge.Json

/-- The spelling of one character inside a string. Quote, backslash and the control characters below
the blank are escaped; everything else stands for itself. -/
def escapeChar (c : Char) : List Char :=
  if c = '"' then ['\\', '"']
  else if c = '\\' then ['\\', '\\']
  else if c = '\n' then ['\\', 'n']
  else if c = '\r' then ['\\', 'r']
  else if c = '\t' then ['\\', 't']
  else if c = '\x08' then ['\\', 'b']
  else if c = '\x0c' then ['\\', 'f']
  else if c.toNat < 0x20 then '\\' :: 'u' :: '0' :: '0' :: Text.hexPair c.toNat
  else [c]

def stringChars (s : String) : List Char :=
  '"' :: (s.toList.flatMap escapeChar ++ ['"'])

def numberChars : Number → List Char
  | .natural n => Text.decimal n
  | .negative n => '-' :: Text.decimal n
  | .binary x => x.text

mutual

def compactChars : Value → List Char
  | .null => "null".toList
  | .bool true => "true".toList
  | .bool false => "false".toList
  | .number n => numberChars n
  | .text s => stringChars s
  | .array items => '[' :: (compactItems items ++ [']'])
  | .object entries => '\x7b' :: (compactEntries entries ++ ['\x7d'])

def compactItems : List Value → List Char
  | [] => []
  | [item] => compactChars item
  | item :: rest => compactChars item ++ ',' :: compactItems rest

def compactEntries : List (String × Value) → List Char
  | [] => []
  | [(key, value)] => stringChars key ++ ':' :: compactChars value
  | (key, value) :: rest =>
      stringChars key ++ ':' :: (compactChars value ++ ',' :: compactEntries rest)

end

def freshLine (level : Nat) : List Char :=
  '\n' :: List.replicate (2 * level) ' '

mutual

/-- A value with one item or entry on a line, indented by two blanks for each level; an empty
container stays on its line. -/
def prettyChars (level : Nat) : Value → List Char
  | .array [] => ['[', ']']
  | .array items => '[' :: (prettyItems (level + 1) items ++ freshLine level ++ [']'])
  | .object [] => ['\x7b', '\x7d']
  | .object entries => '\x7b' :: (prettyEntries (level + 1) entries ++ freshLine level ++ ['\x7d'])
  | .null => "null".toList
  | .bool true => "true".toList
  | .bool false => "false".toList
  | .number n => numberChars n
  | .text s => stringChars s

def prettyItems (level : Nat) : List Value → List Char
  | [] => []
  | [item] => freshLine level ++ prettyChars level item
  | item :: rest => freshLine level ++ (prettyChars level item ++ ',' :: prettyItems level rest)

def prettyEntries (level : Nat) : List (String × Value) → List Char
  | [] => []
  | [(key, value)] => freshLine level ++ (stringChars key ++ ':' :: ' ' :: prettyChars level value)
  | (key, value) :: rest =>
      freshLine level ++ (stringChars key ++ ':' :: ' ' ::
        (prettyChars level value ++ ',' :: prettyEntries level rest))

end

def compact (v : Value) : String :=
  String.ofList (compactChars v)

def pretty (v : Value) : String :=
  String.ofList (prettyChars 0 v)

end GioForge.Json
