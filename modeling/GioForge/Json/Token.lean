import GioForge.Document.Node
import GioForge.Json.Numeral

/-!
The tokens of a JSON text. Tokens know where they start. A token that cannot be read to its end is
the last one and carries the break; a string or a number that can be read to its end and has no
value carries the fault and others follow it.
-/

namespace GioForge.Json

open Document

inductive Lexeme where
  | openBrace
  | closeBrace
  | openBracket
  | closeBracket
  | colon
  | comma
  | null
  | bool (b : Bool)
  | number (n : Except Fault Number)
  | text (s : Except Fault String)
  /-- A string that cannot be read to its end. -/
  | cutText (place : Break)
  /-- Anything else that cannot be read to its end, and characters that start no token. -/
  | cut (place : Break)
  deriving Inhabited

/-- A token with its mark, the number of bytes read once its first byte has been. -/
structure Token where
  mark : Nat
  lexeme : Lexeme
  deriving Inhabited

def isSpace (c : Char) : Bool :=
  c == ' ' || c == '\t' || c == '\n' || c == '\r'

abbrev Lexed := Lexeme × Nat

/-- The rest of a text: how many bytes lie before it and how many the whole text has. -/
structure Place where
  index : Nat
  size : Nat

namespace Place

def truncated (p : Place) : Fault := .truncated p.size

/-- The fault of the character that lies `bytes` behind the place. -/
def malformed (p : Place) (bytes : Nat) : Fault := .malformed (p.index + bytes + 1)

/-- The break at the end of a text inside a number: a reader that passes over the number takes the
missing digit for a wrong one. -/
def missingDigit (p : Place) : Break := ⟨.truncated p.size, .malformed p.size⟩

end Place

/-- Reads the letters of a word behind its first one. -/
def word (p : Place) (lexeme : Lexeme) (expected cs : List Char) (done : Nat) : Lexed :=
  match expected, cs with
  | [], _ => (lexeme, done)
  | _ :: _, [] => (.cut (.plain p.truncated), done)
  | e :: expected, c :: cs =>
      if e = c then word p lexeme expected cs (done + 1)
      else (.cut (.plain (p.malformed done)), done)

/-- Turns a numeral at `p` that takes `length` characters into a lexeme. -/
def numberLexeme (p : Place) (numeral : Numeral) (length : Nat) : Lexed :=
  let n := match numeral.number with
    | .ok n => .ok n
    | .error .atEnd => .error (.malformed (p.index + length))
    | .error (.inExponent digits) =>
        let all := (numeral.exponent.map fun e => e.2.length).getD 0
        .error (.malformed (p.index + length - all + digits))
  (.number n, length)

/-- Reads the exponent of a numeral, behind its letter; `done` characters come before it. -/
def exponentPart (p : Place) (numeral : Numeral) (cs : List Char) (done : Nat) : Lexed :=
  let (minus, cs, done) := match cs with
    | '+' :: rest => (false, rest, done + 1)
    | '-' :: rest => (true, rest, done + 1)
    | _ => (false, cs, done)
  let digits := cs.takeWhile Text.isDigit
  match digits, cs with
  | [], [] => (.cut p.missingDigit, done)
  | [], _ :: _ => (.cut (.plain (p.malformed done)), done)
  | _ :: _, _ =>
      numberLexeme p { numeral with exponent := some (minus, digits) } (done + digits.length)

/-- Reads what may follow the digits of a numeral: an exponent or nothing. -/
def afterDigits (p : Place) (numeral : Numeral) (cs : List Char) (done : Nat) : Lexed :=
  match cs with
  | 'e' :: rest => exponentPart p numeral rest (done + 1)
  | 'E' :: rest => exponentPart p numeral rest (done + 1)
  | _ => numberLexeme p numeral done

/-- Reads the rest of a numeral behind the digits in front of the point. -/
def afterWhole (p : Place) (numeral : Numeral) (cs : List Char) (done : Nat) : Lexed :=
  match cs with
  | '.' :: rest =>
      let digits := rest.takeWhile Text.isDigit
      match digits, rest with
      | [], [] => (.cut p.missingDigit, done)
      | [], _ :: _ => (.cut (.plain (p.malformed (done + 1))), done)
      | _ :: _, _ =>
          afterDigits p { numeral with fraction := some digits } (rest.drop digits.length)
            (done + 1 + digits.length)
  | _ => afterDigits p numeral cs done

/-- Reads a numeral behind its sign; `done` is one with a sign and zero without. Only zero itself
starts with a zero. -/
def numeralPart (p : Place) (negative : Bool) (cs : List Char) (done : Nat) : Lexed :=
  match cs with
  | [] => (.cut p.missingDigit, done)
  | '0' :: rest =>
      if (rest.head?.map Text.isDigit).getD false then
        (.cut (.plain (p.malformed (done + 1))), done)
      else afterWhole p ⟨negative, ['0'], none, none⟩ rest (done + 1)
  | c :: _ =>
      if Text.isDigit c then
        let digits := cs.takeWhile Text.isDigit
        afterWhole p ⟨negative, digits, none, none⟩ (cs.drop digits.length)
          (done + digits.length)
      else (.cut (.plain (p.malformed done)), done)

def shortEscape? : Char → Option Char
  | '"' => some '"'
  | '\\' => some '\\'
  | '/' => some '/'
  | 'b' => some '\x08'
  | 'f' => some '\x0c'
  | 'n' => some '\n'
  | 'r' => some '\r'
  | 't' => some '\t'
  | _ => none

/-- Half of a character beyond the first plane, the half that comes first. -/
def isHighHalf (n : Nat) : Bool :=
  0xd800 ≤ n && n ≤ 0xdbff

/-- The half of a character beyond the first plane that comes second. -/
def isLowHalf (n : Nat) : Bool :=
  0xdc00 ≤ n && n ≤ 0xdfff

def joinHalves (high low : Nat) : Char :=
  Char.ofNat (0x10000 + (high - 0xd800) * 0x400 + (low - 0xdc00))

/-- The first fault of a string so far when a first half is pending and something else than a second
half follows it, which is found out at `fault`. -/
def unpaired (half : Option Nat) (bad : Option Fault) (fault : Fault) : Option Fault :=
  match half with
  | some _ => bad <|> some fault
  | none => bad

/-- Reads a string behind its opening quote. `index` bytes of the text and `done` characters of the
token lie before the rest, `read` holds the characters so far, last one first, `half` the first half
of a character that waits for its second half, and `bad` the first fault met by a reader that uses
the string. A reader that passes over the string does not look at the numbers in escapes, and it
stops in front of a control character and not behind it. -/
def stringPart (size index done : Nat) (read : List Char) (half : Option Nat) (bad : Option Fault) :
    List Char → Lexed
  | [] => (.cutText ⟨bad.getD (.truncated size), .truncated size⟩, done)
  | '"' :: _ =>
      (.text (match unpaired half bad (.malformed (index + 1)) with
        | some fault => .error fault
        | none => .ok (String.ofList read.reverse)), done + 1)
  | '\\' :: [] => (.cutText ⟨bad.getD (.truncated size), .truncated size⟩, done)
  | '\\' :: 'u' :: a :: b :: c :: d :: rest =>
      match Text.hexNaturalOf? [a, b, c, d] with
      | none =>
          let fault := .malformed (index + 6)
          (.cutText ⟨bad.getD fault, fault⟩, done)
      | some n =>
          if isHighHalf n then
            stringPart size (index + 6) (done + 6) read (some n)
              (unpaired half bad (.malformed (index + 6))) rest
          else if isLowHalf n then
            match half with
            | some high =>
                stringPart size (index + 6) (done + 6) (joinHalves high n :: read) none bad rest
            | none =>
                stringPart size (index + 6) (done + 6) read none
                  (bad <|> some (.malformed (index + 6))) rest
          else
            stringPart size (index + 6) (done + 6) (Char.ofNat n :: read) none
              (unpaired half bad (.malformed (index + 6))) rest
  | '\\' :: 'u' :: _ =>
      let fault := if size < index + 6 then .truncated size else .malformed (index + 6)
      (.cutText ⟨bad.getD fault, fault⟩, done)
  | '\\' :: e :: rest =>
      match shortEscape? e with
      | some c =>
          stringPart size (index + 2) (done + 2) (c :: read) none
            (unpaired half bad (.malformed (index + 2))) rest
      | none => (.cutText ⟨bad.getD (.malformed (index + 2)), .malformed (index + 2)⟩, done)
  | c :: rest =>
      if c.toNat < 0x20 then
        (.cutText ⟨bad.getD (.malformed (index + 1)), .malformed index⟩, done)
      else
        stringPart size (index + c.utf8Size) (done + 1) (c :: read) none
          (unpaired half bad (.malformed (index + 1))) rest

/-- The token that starts with `c` and goes on in `rest`. -/
def lexeme (p : Place) (c : Char) (rest : List Char) : Lexed :=
  match c with
  | '\x7b' => (.openBrace, 1)
  | '\x7d' => (.closeBrace, 1)
  | '[' => (.openBracket, 1)
  | ']' => (.closeBracket, 1)
  | ':' => (.colon, 1)
  | ',' => (.comma, 1)
  | '"' => stringPart p.size (p.index + 1) 1 [] none none rest
  | 'n' => word p .null "ull".toList rest 1
  | 't' => word p (.bool true) "rue".toList rest 1
  | 'f' => word p (.bool false) "alse".toList rest 1
  | '-' => numeralPart p true rest 1
  | _ =>
      if Text.isDigit c then numeralPart p false (c :: rest) 0
      else (.cut (.plain (p.malformed 0)), 1)

def Lexeme.isWhole : Lexeme → Bool
  | .cutText _ => false
  | .cut _ => false
  | _ => true

/-- The tokens of a text of `size` bytes, `index` of which lie before it; `pending` characters still
belong to the last token. -/
def tokensFrom (size index pending : Nat) : List Char → List Token
  | [] => []
  | c :: rest =>
      match pending with
      | more + 1 => tokensFrom size (index + c.utf8Size) more rest
      | 0 =>
          if isSpace c then tokensFrom size (index + 1) 0 rest
          else
            let (lexeme, length) := lexeme ⟨index, size⟩ c rest
            if lexeme.isWhole then
              ⟨index + 1, lexeme⟩ :: tokensFrom size (index + c.utf8Size) (length - 1) rest
            else [⟨index + 1, lexeme⟩]

def tokens (text : String) : List Token :=
  tokensFrom text.utf8ByteSize 0 0 text.toList

end GioForge.Json
