import GioForge.Proofs.Go.Interpreted

/-!
The grammar of interpreted string literals, rule by rule as the Go specification gives
it and apart from any way of reading it. Main result: whatever follows a quoted text,
the only literal at the start is the quoted text itself, and it stands for the bytes of
the text. The reader of literals serves to show that there is no other: it follows the
grammar, and it cannot go on over a closing quote.
-/

namespace GioForge.Go

/-- What may stand between the quotes as one unit, and the bytes that it stands for. -/
inductive Piece : List Char → List UInt8 → Prop where
  /-- A character that stands for itself. -/
  | char {c : Char} (hquote : c ≠ '"') (hfeed : c ≠ '\n') (hslash : c ≠ '\\') :
      Piece [c] (String.utf8EncodeChar c)
  /-- An escape of one letter. -/
  | letter {c : Char} {b : UInt8} (h : simpleEscape? c = some b) : Piece ['\\', c] [b]
  /-- A byte as three octal digits. -/
  | octal {a b c : Char} {x y z : Nat} (ha : octalValue? a = some x) (hb : octalValue? b = some y)
      (hc : octalValue? c = some z) (hbyte : x * 64 + y * 8 + z ≤ 255) :
      Piece ['\\', a, b, c] [UInt8.ofNat (x * 64 + y * 8 + z)]
  /-- A byte as two hexadecimal digits. -/
  | byte {a b : Char} {n : Nat} (h : Text.hexNaturalOf? [a, b] = some n) :
      Piece ['\\', 'x', a, b] [UInt8.ofNat n]
  /-- A code point as four hexadecimal digits. -/
  | short {digits : List Char} {n : Nat} (hlength : digits.length = 4)
      (h : Text.hexNaturalOf? digits = some n) (hvalid : n.isValidChar) :
      Piece ('\\' :: 'u' :: digits) (String.utf8EncodeChar (Char.ofNat n))
  /-- A code point as eight hexadecimal digits. -/
  | long {digits : List Char} {n : Nat} (hlength : digits.length = 8)
      (h : Text.hexNaturalOf? digits = some n) (hvalid : n.isValidChar) :
      Piece ('\\' :: 'U' :: digits) (String.utf8EncodeChar (Char.ofNat n))

inductive Contents : List Char → List UInt8 → Prop where
  | nil : Contents [] []
  | cons {piece rest : List Char} {bytes more : List UInt8} (hpiece : Piece piece bytes)
      (hrest : Contents rest more) : Contents (piece ++ rest) (bytes ++ more)

/-- An interpreted string literal and the bytes that it stands for. -/
inductive Interpreted : List Char → List UInt8 → Prop where
  | quoted {contents : List Char} {bytes : List UInt8} (h : Contents contents bytes) :
      Interpreted ('"' :: (contents ++ ['"'])) bytes

/-- Behind a backslash an octal digit can only begin a byte in octal. -/
theorem step_escape_octal {c : Char} {d : Nat} (h : octalValue? c = some d) :
    Reading.step .escape c = some ([], .octal 2 d) := by
  have hletter : simpleEscape? c = none := by
    unfold simpleEscape?
    split
    case h_10 => rfl
    all_goals cases h
  have hother : c ≠ 'x' ∧ c ≠ 'u' ∧ c ≠ 'U' := by
    refine ⟨?_, ?_, ?_⟩
    all_goals
      rintro rfl
      cases h
  simp [Reading.step, hletter, hother, h]

/-- The digits of a code point are read to the code point. -/
theorem read_codePoint {digits : List Char} {value n : Nat} (hdigits : digits ≠ [])
    (h : digits.foldlM (fun total c => (Text.hexValue? c).map (total * 16 + ·)) value = some n)
    (hvalid : n.isValidChar) :
    transduce Reading.step (.codePoint digits.length value) digits =
      some (String.utf8EncodeChar (Char.ofNat n), .plain) := by
  induction digits generalizing value with
  | nil => exact absurd rfl hdigits
  | cons c rest ih =>
      simp only [List.foldlM_cons, Option.bind_eq_bind, Option.bind_eq_some_iff,
        Option.map_eq_some_iff] at h
      obtain ⟨_, ⟨d, hd, rfl⟩, hrest⟩ := h
      cases rest with
      | nil =>
          obtain rfl : value * 16 + d = n := by simpa using hrest
          have hbytes : codePointBytes? (value * 16 + d) =
              some (String.utf8EncodeChar (Char.ofNat (value * 16 + d))) := by
            simp [codePointBytes?, hvalid]
          exact transduce_singleton (by simp [Reading.step, hd, hbytes])
      | cons next more =>
          have hstep : Reading.step (.codePoint (c :: next :: more).length value) c =
              some ([], .codePoint (next :: more).length (value * 16 + d)) := by
            simp [Reading.step, hd]
          exact transduce_cons hstep (ih (by simp) hrest)

/-- The reader takes a piece of a literal for the bytes it stands for. -/
theorem Piece.read {piece : List Char} {bytes : List UInt8} (h : Piece piece bytes) :
    transduce Reading.step .plain piece = some (bytes, .plain) := by
  have hbackslash : Reading.step .plain '\\' = some ([], .escape) := rfl
  cases h with
  | char hquote hfeed hslash =>
      exact transduce_singleton (by simp [Reading.step, hquote, hfeed, hslash])
  | letter h =>
      exact transduce_cons hbackslash (transduce_singleton (by simp [Reading.step, h]))
  | @octal a b c x y z ha hb hc hbyte =>
      have hsecond : Reading.step (.octal 2 x) b = some ([], .octal 1 (x * 8 + y)) := by
        simp [Reading.step, hb]
      have hvalue : (x * 8 + y) * 8 + z = x * 64 + y * 8 + z := by omega
      have hthird : Reading.step (.octal 1 (x * 8 + y)) c =
          some ([UInt8.ofNat (x * 64 + y * 8 + z)], .plain) := by
        simp only [Reading.step, hc, Option.bind_eq_bind, Option.bind_some, hvalue]
        rw [if_neg (by decide), if_pos hbyte]
        rfl
      exact transduce_cons hbackslash (transduce_cons (step_escape_octal ha)
        (transduce_cons hsecond (transduce_singleton hthird)))
  | @byte a b n h =>
      obtain ⟨x, hx, y, hy, rfl⟩ : ∃ x, Text.hexValue? a = some x ∧
          ∃ y, Text.hexValue? b = some y ∧ x * 16 + y = n := by
        simpa [Text.hexNaturalOf?, Option.bind_eq_some_iff] using h
      have hletter : Reading.step .escape 'x' = some ([], .byte 2 0) := rfl
      have hfirst : Reading.step (.byte 2 0) a = some ([], .byte 1 x) := by
        simp [Reading.step, hx]
      have hsecond : Reading.step (.byte 1 x) b = some ([UInt8.ofNat (x * 16 + y)], .plain) := by
        simp [Reading.step, hy]
      exact transduce_cons hbackslash (transduce_cons hletter
        (transduce_cons hfirst (transduce_singleton hsecond)))
  | short hlength h hvalid =>
      have hletter : Reading.step .escape 'u' = some ([], .codePoint 4 0) := rfl
      have hdigits := read_codePoint (by rintro rfl; cases hlength) h hvalid
      rw [hlength] at hdigits
      exact transduce_cons hbackslash (transduce_cons hletter hdigits)
  | long hlength h hvalid =>
      have hletter : Reading.step .escape 'U' = some ([], .codePoint 8 0) := rfl
      have hdigits := read_codePoint (by rintro rfl; cases hlength) h hvalid
      rw [hlength] at hdigits
      exact transduce_cons hbackslash (transduce_cons hletter hdigits)

/-- So it takes the contents of a literal for the bytes they stand for. -/
theorem Contents.read {contents : List Char} {bytes : List UInt8} (h : Contents contents bytes) :
    transduce Reading.step .plain contents = some (bytes, .plain) := by
  induction h with
  | nil => rfl
  | cons hpiece _ ih => exact transduce_append hpiece.read ih

theorem hexNaturalOf?_hexPair (n : Nat) (hn : n < 256) :
    Text.hexNaturalOf? (Text.hexPair n) = some n := by
  have hhigh := hexValue?_hexDigit (n / 16 % 16) (Nat.mod_lt _ (by decide))
  have hlow := hexValue?_hexDigit (n % 16) (Nat.mod_lt _ (by decide))
  have hvalue : n / 16 % 16 * 16 + n % 16 = n := by omega
  simp [Text.hexNaturalOf?, Text.hexPair, hhigh, hlow, hvalue]

theorem piece_escapeChar (c : Char) : Piece (escapeChar c) (String.utf8EncodeChar c) := by
  unfold escapeChar
  split_ifs with hslash hquote hfeed hreturn htab hcontrol
  · subst hslash
    exact .letter rfl
  · subst hquote
    exact .letter rfl
  · subst hfeed
    exact .letter rfl
  · subst hreturn
    exact .letter rfl
  · subst htab
    exact .letter rfl
  · have hle := isControl_le hcontrol
    rw [utf8EncodeChar_of_le c hle]
    exact .byte (hexNaturalOf?_hexPair c.toNat (by omega))
  · exact .char hquote hfeed hslash

theorem contents_escape (s : String) : Contents (escape s).toList (utf8 s) := by
  rw [utf8_eq_flatMap, escape, String.toList_ofList]
  induction s.toList with
  | nil => exact .nil
  | cons c rest ih => exact .cons (piece_escapeChar c) ih

theorem toList_quote (s : String) : (quote s).toList = '"' :: ((escape s).toList ++ ['"']) := by
  simp [quote]

/-- A quoted text is a literal for the bytes of the text. -/
theorem interpreted_quote (s : String) : Interpreted (quote s).toList (utf8 s) := by
  rw [toList_quote]
  exact .quoted (contents_escape s)

theorem transduce_append_none {σ α β : Type} {step : σ → α → Option (List β × σ)} {s m : σ}
    {first second : List α} {out : List β} (hfirst : transduce step s first = some (out, m))
    (hsecond : transduce step m second = none) : transduce step s (first ++ second) = none := by
  induction first generalizing s out with
  | nil =>
      obtain ⟨_, rfl⟩ : [] = out ∧ s = m := by simpa [transduce] using hfirst
      exact hsecond
  | cons x rest ih =>
      simp only [transduce, Option.bind_eq_bind, Option.bind_eq_some_iff] at hfirst
      obtain ⟨⟨_, next⟩, hstep, ⟨more, last⟩, hrest, heq⟩ := hfirst
      obtain ⟨_, rfl⟩ := Prod.mk.inj (Option.some.inj heq)
      simp [transduce, hstep, ih hrest]

/-- No literal goes on behind a quote at which it may end. -/
theorem read_past_quote {first : List Char} {bytes : List UInt8} (rest : List Char)
    (h : transduce Reading.step .plain first = some (bytes, .plain)) :
    transduce Reading.step .plain (first ++ '"' :: rest) = none :=
  transduce_append_none h (by simp [transduce, Reading.step])

/-- There is one way to cut off the contents of a literal before its closing quote. -/
theorem contents_unique {first second rest more : List Char} {bytes others : List UInt8}
    (hfirst : Contents first bytes) (hsecond : Contents second others)
    (h : first ++ '"' :: rest = second ++ '"' :: more) :
    first = second ∧ rest = more ∧ bytes = others := by
  have hsame : first = second := by
    rcases List.append_eq_append_iff.mp h with ⟨between, hsplit, hrest⟩ | ⟨between, hsplit, hrest⟩
    · cases between with
      | nil => simpa using hsplit.symm
      | cons c tail =>
          obtain rfl : '"' = c := (List.cons.inj hrest).1
          have hread := hsecond.read
          rw [hsplit, read_past_quote tail hfirst.read] at hread
          cases hread
    · cases between with
      | nil => simpa using hsplit
      | cons c tail =>
          obtain rfl : '"' = c := (List.cons.inj hrest).1
          have hread := hfirst.read
          rw [hsplit, read_past_quote tail hsecond.read] at hread
          cases hread
  subst hsame
  have hrest := List.append_cancel_left h
  have hread := hfirst.read.symm.trans hsecond.read
  exact ⟨rfl, (List.cons.inj hrest).2, (Prod.mk.inj (Option.some.inj hread)).1⟩

theorem utf8_injective : Function.Injective utf8 := by
  intro s t h
  have hbytes : s.toUTF8.data = t.toUTF8.data := Array.toList_inj.mp h
  exact String.toByteArray_inj.mp (ByteArray.ext hbytes)

/-- Whatever text `t` follows the quoted text `s`, there is one way to cut off an
interpreted literal at the start: it is the quoted text, the rest is `t`, and the literal
stands for the bytes of `s`. So no two texts have the same literal, and none has a
control character in it. -/
theorem quoted_texts_are_self_delimiting (s : String) :
    (∀ (t : String) (literal rest : List Char) (bytes : List UInt8),
      literal ++ rest = (quote s ++ t).toList ∧ Interpreted literal bytes ↔
        literal = (quote s).toList ∧ rest = t.toList ∧ bytes = utf8 s) ∧
    (∀ other, quote other = quote s ↔ other = s) ∧
    ∀ c ∈ (quote s).toList, isControl c = false := by
  have hunique : ∀ (t : String) (literal rest : List Char) (bytes : List UInt8),
      literal ++ rest = (quote s ++ t).toList → Interpreted literal bytes →
        literal = (quote s).toList ∧ rest = t.toList ∧ bytes = utf8 s := by
    rintro t _ rest bytes hcut ⟨hcontents⟩
    rw [String.toList_append, toList_quote] at hcut
    obtain ⟨rfl, rfl, rfl⟩ := contents_unique hcontents (contents_escape s)
      (by simpa using hcut)
    exact ⟨(toList_quote s).symm, rfl, rfl⟩
  refine ⟨?_, ?_, ?_⟩
  · intro t literal rest bytes
    constructor
    · rintro ⟨hcut, hliteral⟩
      exact hunique t literal rest bytes hcut hliteral
    · rintro ⟨rfl, rfl, rfl⟩
      exact ⟨String.toList_append.symm, interpreted_quote s⟩
  · intro other
    constructor
    · intro h
      have hread := hunique "" (quote other).toList [] (utf8 other) (by simp [h])
        (interpreted_quote other)
      exact utf8_injective hread.2.2
    · rintro rfl
      rfl
  · intro c hc
    rw [toList_quote] at hc
    simp only [List.mem_cons, List.mem_append, List.not_mem_nil, or_false] at hc
    rcases hc with rfl | hc | rfl
    · rfl
    · exact not_isControl_of_mem_escape hc
    · rfl

/-- A byte in hexadecimal before a letter that could be one more digit, and a backslash
before the closing quote, with another quote behind it. -/
theorem quoted_texts_are_self_delimiting_hex :
    quote "\x01f\\" = "\"\\x01f\\\\\"" ∧
      Interpreted "\"\\x01f\\\\\"".toList [0x01, 0x66, 0x5c] ∧
      ∀ literal rest bytes, literal ++ rest = "\"\\x01f\\\\\"\"".toList →
        Interpreted literal bytes → rest = ['"'] ∧ bytes = [0x01, 0x66, 0x5c] := by
  have hread := (quoted_texts_are_self_delimiting "\x01f\\").1 "\""
  refine ⟨rfl, ((hread _ _ _).mpr ⟨rfl, rfl, rfl⟩).2, ?_⟩
  intro literal rest bytes hcut hliteral
  exact ((hread literal rest bytes).mp ⟨hcut, hliteral⟩).2

end GioForge.Go
