import GioForge.Go.Literal
import Mathlib.Tactic.Common

/-!
Reading interpreted string literals by the grammar of the Go specification. A
literal stands for bytes: a character stands for its UTF-8 encoding, the octal and
hexadecimal escapes for one byte, and the two Unicode escapes for the encoding of a
code point. The reader takes one character at a time, so that a literal can be read
piece by piece. Main result: what `escape` writes is read back as the UTF-8 bytes of
the text, and reading it ends where a closing quote may stand.
-/

namespace GioForge.Go

section Transducer

variable {σ α β : Type} (step : σ → α → Option (List β × σ))

/-- Feeds a list to a machine that puts out a list of results at each step. -/
def transduce : σ → List α → Option (List β × σ)
  | state, [] => some ([], state)
  | state, x :: rest => do
      let (out, next) ← step state x
      let (more, last) ← transduce next rest
      return (out ++ more, last)

variable {step}

theorem transduce_cons {s m t : σ} {x : α} {rest : List α} {a b : List β}
    (hstep : step s x = some (a, m)) (hrest : transduce step m rest = some (b, t)) :
    transduce step s (x :: rest) = some (a ++ b, t) := by
  simp [transduce, hstep, hrest]

theorem transduce_singleton {s t : σ} {x : α} {a : List β} (hstep : step s x = some (a, t)) :
    transduce step s [x] = some (a, t) := by
  simp [transduce, hstep]

/-- Two inputs in a row are read by reading the second where the first ended. -/
theorem transduce_append {s m t : σ} {first second : List α} {a b : List β}
    (hfirst : transduce step s first = some (a, m))
    (hsecond : transduce step m second = some (b, t)) :
    transduce step s (first ++ second) = some (a ++ b, t) := by
  induction first generalizing s a with
  | nil =>
      obtain ⟨rfl, rfl⟩ : [] = a ∧ s = m := by simpa [transduce] using hfirst
      exact hsecond
  | cons x rest ih =>
      simp only [transduce, Option.bind_eq_bind, Option.bind_eq_some_iff] at hfirst
      obtain ⟨⟨out, next⟩, hstep, ⟨more, last⟩, hrest, heq⟩ := hfirst
      obtain ⟨rfl, rfl⟩ : out ++ more = a ∧ last = m := by simpa using heq
      rw [List.append_assoc]
      exact transduce_cons hstep (ih hrest)

end Transducer

def utf8 (s : String) : List UInt8 :=
  s.toUTF8.data.toList

theorem utf8_eq_flatMap (s : String) : utf8 s = s.toList.flatMap String.utf8EncodeChar := by
  have hbytes : s.toUTF8 = (s.toList.flatMap String.utf8EncodeChar).toByteArray :=
    String.utf8Encode_toList.symm
  rw [utf8, hbytes, List.data_toByteArray]

/-- What a reader of a literal has seen of the piece it is in. -/
inductive Reading where
  /-- Nothing: a character, an escape or the closing quote comes next. -/
  | plain
  /-- A backslash. -/
  | escape
  /-- A byte in octal, with so many digits to come. -/
  | octal (left value : Nat)
  /-- A byte in hexadecimal, with so many digits to come. -/
  | byte (left value : Nat)
  /-- A code point in hexadecimal, with so many digits to come. -/
  | codePoint (left value : Nat)
  deriving DecidableEq

def simpleEscape? : Char → Option UInt8
  | 'a' => some 0x07
  | 'b' => some 0x08
  | 'f' => some 0x0c
  | 'n' => some 0x0a
  | 'r' => some 0x0d
  | 't' => some 0x09
  | 'v' => some 0x0b
  | '\\' => some 0x5c
  | '"' => some 0x22
  | _ => none

def octalValue? (c : Char) : Option Nat :=
  if '0' ≤ c && c ≤ '7' then some (c.toNat - '0'.toNat) else none

/-- The encoding of a code point; the halves of surrogate pairs and numbers beyond
the last code point have none. -/
def codePointBytes? (n : Nat) : Option (List UInt8) :=
  if n.isValidChar then some (String.utf8EncodeChar (Char.ofNat n)) else none

namespace Reading

/-- Takes one character between the quotes. A quote that is not escaped and a line
feed are not taken. -/
def step : Reading → Char → Option (List UInt8 × Reading)
  | .plain, c =>
      if c = '"' ∨ c = '\n' then none
      else if c = '\\' then some ([], .escape)
      else some (String.utf8EncodeChar c, .plain)
  | .escape, c =>
      match simpleEscape? c with
      | some b => some ([b], .plain)
      | none =>
          if c = 'x' then some ([], .byte 2 0)
          else if c = 'u' then some ([], .codePoint 4 0)
          else if c = 'U' then some ([], .codePoint 8 0)
          else (octalValue? c).map fun d => ([], .octal 2 d)
  | .octal left value, c => do
      let d ← octalValue? c
      if 1 < left then return ([], .octal (left - 1) (value * 8 + d))
      else if value * 8 + d ≤ 255 then return ([UInt8.ofNat (value * 8 + d)], .plain)
      else none
  | .byte left value, c => do
      let d ← Text.hexValue? c
      if 1 < left then return ([], .byte (left - 1) (value * 16 + d))
      else return ([UInt8.ofNat (value * 16 + d)], .plain)
  | .codePoint left value, c => do
      let d ← Text.hexValue? c
      if 1 < left then return ([], .codePoint (left - 1) (value * 16 + d))
      else return (← codePointBytes? (value * 16 + d), .plain)

end Reading

theorem hexValue?_hexDigit : ∀ n < 16, Text.hexValue? (Text.hexDigit n) = some n := by
  decide

/-- The two digits of a byte are read back as the byte. -/
theorem read_hexPair (n : Nat) (hn : n < 256) :
    transduce Reading.step (.byte 2 0) (Text.hexPair n) = some ([UInt8.ofNat n], .plain) := by
  have hhigh : Text.hexValue? (Text.hexDigit (n / 16 % 16)) = some (n / 16 % 16) :=
    hexValue?_hexDigit _ (Nat.mod_lt _ (by decide))
  have hlow : Text.hexValue? (Text.hexDigit (n % 16)) = some (n % 16) :=
    hexValue?_hexDigit _ (Nat.mod_lt _ (by decide))
  have hvalue : n / 16 % 16 * 16 + n % 16 = n := by omega
  have hfirst : Reading.step (.byte 2 0) (Text.hexDigit (n / 16 % 16)) =
      some ([], .byte 1 (n / 16 % 16)) := by
    simp [Reading.step, hhigh]
  have hsecond : Reading.step (.byte 1 (n / 16 % 16)) (Text.hexDigit (n % 16)) =
      some ([UInt8.ofNat n], .plain) := by
    simp only [Reading.step, hlow, Option.bind_eq_bind, Option.bind_some, hvalue]
    rfl
  exact transduce_cons hfirst (transduce_singleton hsecond)

/-- An ASCII character is its own encoding. -/
theorem utf8EncodeChar_of_le (c : Char) (hc : c.toNat ≤ 127) :
    String.utf8EncodeChar c = [UInt8.ofNat c.toNat] := by
  have hval : c.val.toNat ≤ 127 := hc
  simp only [String.utf8EncodeChar, if_pos hval]
  rfl

theorem isControl_le {c : Char} (hc : isControl c = true) : c.toNat ≤ 127 := by
  simp only [isControl, Bool.or_eq_true, decide_eq_true_eq, beq_iff_eq] at hc
  omega

/-- The spelling of a character is read as the encoding of the character. -/
theorem read_escapeChar (c : Char) :
    transduce Reading.step .plain (escapeChar c) = some (String.utf8EncodeChar c, .plain) := by
  by_cases hslash : c = '\\'
  · subst hslash; rfl
  by_cases hquote : c = '"'
  · subst hquote; rfl
  by_cases hfeed : c = '\n'
  · subst hfeed; rfl
  by_cases hreturn : c = '\r'
  · subst hreturn; rfl
  by_cases htab : c = '\t'
  · subst htab; rfl
  by_cases hcontrol : isControl c = true
  · have hspelling : escapeChar c = '\\' :: 'x' :: Text.hexPair c.toNat := by
      simp [escapeChar, hslash, hquote, hfeed, hreturn, htab, hcontrol]
    have hle := isControl_le hcontrol
    have hbackslash : Reading.step .plain '\\' = some ([], .escape) := rfl
    have hletter : Reading.step .escape 'x' = some ([], .byte 2 0) := rfl
    rw [hspelling, utf8EncodeChar_of_le c hle]
    exact transduce_cons hbackslash
      (transduce_cons hletter (read_hexPair c.toNat (by omega)))
  · have hspelling : escapeChar c = [c] := by
      simp [escapeChar, hslash, hquote, hfeed, hreturn, htab, hcontrol]
    rw [hspelling]
    exact transduce_singleton (by simp [Reading.step, hslash, hquote, hfeed])

theorem not_isControl_hexDigit : ∀ n < 16, isControl (Text.hexDigit n) = false := by
  decide

/-- Escaping leaves no control. -/
theorem not_isControl_of_mem_escapeChar {c d : Char} (hd : d ∈ escapeChar c) :
    isControl d = false := by
  have hshort : ∀ x, isControl x = false → d ∈ ['\\', x] → isControl d = false := by
    intro x hx hmem
    simp only [List.mem_cons, List.not_mem_nil, or_false] at hmem
    rcases hmem with rfl | rfl
    · rfl
    · exact hx
  unfold escapeChar at hd
  split_ifs at hd with hslash hquote hfeed hreturn htab hcontrol
  · exact hshort '\\' rfl hd
  · exact hshort '"' rfl hd
  · exact hshort 'n' rfl hd
  · exact hshort 'r' rfl hd
  · exact hshort 't' rfl hd
  · have hhigh := not_isControl_hexDigit (c.toNat / 16 % 16) (Nat.mod_lt _ (by decide))
    have hlow := not_isControl_hexDigit (c.toNat % 16) (Nat.mod_lt _ (by decide))
    simp only [Text.hexPair, List.mem_cons, List.not_mem_nil, or_false] at hd
    rcases hd with rfl | rfl | rfl | rfl
    · rfl
    · rfl
    · exact hhigh
    · exact hlow
  · rw [List.mem_singleton.mp hd]
    simpa using hcontrol

/-- What stands between the quotes has no control character, and so no line end. -/
theorem not_isControl_of_mem_escape {s : String} {d : Char} (hd : d ∈ (escape s).toList) :
    isControl d = false := by
  rw [escape, String.toList_ofList] at hd
  obtain ⟨c, _, hc⟩ := List.mem_flatMap.mp hd
  exact not_isControl_of_mem_escapeChar hc

/-- What `escape` writes is read back as the bytes of the text. -/
theorem read_escape (s : String) :
    transduce Reading.step .plain (escape s).toList = some (utf8 s, .plain) := by
  rw [utf8_eq_flatMap, escape, String.toList_ofList]
  induction s.toList with
  | nil => rfl
  | cons c rest ih =>
      rw [List.flatMap_cons, List.flatMap_cons]
      exact transduce_append (read_escapeChar c) ih

end GioForge.Go
