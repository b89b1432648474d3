import GioForge.Text.Digit

/-!
The texts of TOML: strings in their four forms, keys, comments and the white space between things.
A reader takes the characters that are left and gives what it read with the characters behind it, or
nothing if they do not follow the format.
-/

namespace GioForge.Toml

abbrev Reader (α : Type) := List Char → Option (α × List Char)

def isGap (c : Char) : Bool :=
  c == ' ' || c == '\t'

/-- The characters that may stand for themselves in comments and strings: all but the controls. -/
def isPrintable (c : Char) : Bool :=
  c == '\t' || (0x20 ≤ c.toNat && c.toNat != 0x7f)

def isBareKey (c : Char) : Bool :=
  ('a' ≤ c && c ≤ 'z') || ('A' ≤ c && c ≤ 'Z') || Text.isDigit c || c == '_' || c == '-'

def skipGaps (cs : List Char) : List Char :=
  cs.dropWhile isGap

/-- Passes over white space, line ends and comments. A comment runs to the end of its line. -/
def skipTrivia (inComment : Bool) : List Char → Option (List Char)
  | [] => some []
  | '\n' :: rest => skipTrivia false rest
  | '\r' :: '\n' :: rest => skipTrivia false rest
  | c :: rest =>
      if inComment then (if isPrintable c then skipTrivia true rest else none)
      else if isGap c then skipTrivia false rest
      else if c = '#' then skipTrivia true rest
      else some (c :: rest)

/-- Passes over the end of a line: white space, a comment, and a line end or the end of the text. -/
def skipLineEnd (cs : List Char) : Option (List Char) :=
  let afterComment := match skipGaps cs with
    | '#' :: rest => rest.dropWhile isPrintable
    | rest => rest
  match afterComment with
  | [] => some []
  | '\n' :: rest => some rest
  | '\r' :: '\n' :: rest => some rest
  | _ => none

def basicExtent : Reader (List Char)
  | [] => none
  | '"' :: rest => some ([], rest)
  | '\\' :: c :: rest => (basicExtent rest).map fun r => ('\\' :: c :: r.1, r.2)
  | c :: rest => (basicExtent rest).map fun r => (c :: r.1, r.2)

/-- The raw text of a multi-line string up to its three closing quotes; one or two further quotes
belong to the text. -/
def longBasicExtent : Reader (List Char)
  | [] => none
  | '"' :: '"' :: '"' :: '"' :: '"' :: rest => some (['"', '"'], rest)
  | '"' :: '"' :: '"' :: '"' :: rest => some (['"'], rest)
  | '"' :: '"' :: '"' :: rest => some ([], rest)
  | '\\' :: c :: rest => (longBasicExtent rest).map fun r => ('\\' :: c :: r.1, r.2)
  | c :: rest => (longBasicExtent rest).map fun r => (c :: r.1, r.2)

def literalExtent : Reader (List Char)
  | [] => none
  | '\'' :: rest => some ([], rest)
  | c :: rest => (literalExtent rest).map fun r => (c :: r.1, r.2)

def longLiteralExtent : Reader (List Char)
  | [] => none
  | '\'' :: '\'' :: '\'' :: '\'' :: '\'' :: rest => some (['\'', '\''], rest)
  | '\'' :: '\'' :: '\'' :: '\'' :: rest => some (['\''], rest)
  | '\'' :: '\'' :: '\'' :: rest => some ([], rest)
  | c :: rest => (longLiteralExtent rest).map fun r => (c :: r.1, r.2)

/-- Whether a character is one that lies on a line of its own string: printable, or in a multi-line
string a line end. -/
def isContent (multi : Bool) (c : Char) (rest : List Char) : Bool :=
  isPrintable c || (multi && (c == '\n' || (c == '\r' && rest.head? == some '\n')))

/-- The characters of a string without escapes, if all of them may stand in one. -/
def literalContent (multi : Bool) : List Char → Option (List Char)
  | [] => some []
  | c :: rest =>
      if isContent multi c rest then (literalContent multi rest).map (c :: ·) else none

def shortEscape? : Char → Option Char
  | 'b' => some '\x08'
  | 't' => some '\t'
  | 'n' => some '\n'
  | 'f' => some '\x0c'
  | 'r' => some '\r'
  | 'e' => some '\x1b'
  | '"' => some '"'
  | '\\' => some '\\'
  | _ => none

def codePoint? (digits : List Char) : Option Char :=
  match Text.hexNaturalOf? digits with
  | some n => if n.isValidChar then some (Char.ofNat n) else none
  | none => none

/-- Where the reader of a multi-line string stands with a backslash at the end of a line. -/
inductive Fold where
  /-- Nowhere near one. -/
  | off
  /-- Behind the backslash, with a line end still to come. -/
  | wanted
  /-- Behind the line end, passing over white space and further line ends. -/
  | on
  deriving DecidableEq

def basicContent (multi : Bool) (fold : Fold) : List Char → Option (List Char)
  | [] => if fold = .wanted then none else some []
  | c :: rest =>
      if fold = .wanted then
        if isGap c || (c = '\r' && rest.head? = some '\n') then basicContent multi .wanted rest
        else if c = '\n' then basicContent multi .on rest
        else none
      else if fold = .on && (isGap c || c = '\n' || (c = '\r' && rest.head? = some '\n')) then
        basicContent multi .on rest
      else if c = '\\' then
        match rest with
        | 'x' :: a :: b :: tail =>
            (codePoint? [a, b]).bind fun x => (basicContent multi .off tail).map (x :: ·)
        | 'u' :: a :: b :: c :: d :: tail =>
            (codePoint? [a, b, c, d]).bind fun x => (basicContent multi .off tail).map (x :: ·)
        | 'U' :: a :: b :: c :: d :: e :: f :: g :: h :: tail =>
            (codePoint? [a, b, c, d, e, f, g, h]).bind fun x =>
              (basicContent multi .off tail).map (x :: ·)
        | e :: tail =>
            if multi && (isGap e || (e = '\r' && tail.head? = some '\n')) then
              basicContent multi .wanted tail
            else if multi && e = '\n' then basicContent multi .on tail
            else
              (shortEscape? e).bind fun x => (basicContent multi .off tail).map (x :: ·)
        | [] => none
      else if isContent multi c rest then (basicContent multi .off rest).map (c :: ·)
      else none

/-- A multi-line string does not begin with the line end behind its opening quotes. -/
def dropFirstLineEnd : List Char → List Char
  | '\n' :: rest => rest
  | '\r' :: '\n' :: rest => rest
  | cs => cs

def string (cs : List Char) : Option (String × List Char) :=
  match cs with
  | '"' :: '"' :: '"' :: rest => do
      let (raw, rest) ← longBasicExtent rest
      let content ← basicContent true .off (dropFirstLineEnd raw)
      return (String.ofList content, rest)
  | '"' :: rest => do
      let (raw, rest) ← basicExtent rest
      let content ← basicContent false .off raw
      return (String.ofList content, rest)
  | '\'' :: '\'' :: '\'' :: rest => do
      let (raw, rest) ← longLiteralExtent rest
      let content ← literalContent true (dropFirstLineEnd raw)
      return (String.ofList content, rest)
  | '\'' :: rest => do
      let (raw, rest) ← literalExtent rest
      let content ← literalContent false raw
      return (String.ofList content, rest)
  | _ => none

/-- Reads one part of a key: bare, or a one-line string. -/
def keyPart (cs : List Char) : Option (String × List Char) :=
  match cs with
  | '"' :: rest => do
      let (raw, rest) ← basicExtent rest
      let content ← basicContent false .off raw
      return (String.ofList content, rest)
  | '\'' :: rest => do
      let (raw, rest) ← literalExtent rest
      let content ← literalContent false raw
      return (String.ofList content, rest)
  | _ =>
      match cs.takeWhile isBareKey with
      | [] => none
      | name => some (String.ofList name, cs.dropWhile isBareKey)

/-- Reads the parts of a key, so many at most, with dots and white space between them. -/
def keyParts : Nat → Reader (List String)
  | 0, _ => none
  | limit + 1, cs => do
      let (first, rest) ← keyPart (skipGaps cs)
      match skipGaps rest with
      | '.' :: rest =>
          let (others, rest) ← keyParts limit rest
          return (first :: others, rest)
      | rest => return ([first], rest)

def keyLimit : Nat := 80

def key (cs : List Char) : Option (List String × List Char) :=
  keyParts keyLimit cs

end GioForge.Toml
