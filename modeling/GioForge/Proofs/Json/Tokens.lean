import GioForge.Json.Printer
import GioForge.Json.Token
import GioForge.Proofs.Go.Interpreted
import GioForge.Proofs.Go.Scanner

/-!
The tokens of printed values. A judgment `Lexes` says which lexemes some characters are
read as, wherever they stand in a text; where tokens start plays no part. Each kind of
token is settled by what `lexeme` makes of it, and the tokens of containers follow by
putting those of their parts together. The one thing that counts behind a value is that
nothing there can continue a numeral.
-/

namespace GioForge

/-- A whole number of at most 64 bits, written without a sign or with a minus sign in front
of something other than zero. -/
def Number.IsWhole : Number → Prop
  | .natural n => n ≤ naturalLimit
  | .negative n => n ≠ 0 ∧ n ≤ negativeLimit
  | .binary _ => False

instance : DecidablePred Number.IsWhole
  | .natural n => inferInstanceAs (Decidable (n ≤ Number.naturalLimit))
  | .negative n => inferInstanceAs (Decidable (n ≠ 0 ∧ n ≤ Number.negativeLimit))
  | .binary _ => .isFalse id

mutual

def Value.IsWhole : Value → Prop
  | .number n => n.IsWhole
  | .array items => Value.AllWhole items
  | .object entries => Value.EntriesWhole entries
  | _ => True

def Value.AllWhole : List Value → Prop
  | [] => True
  | item :: rest => item.IsWhole ∧ Value.AllWhole rest

def Value.EntriesWhole : List (String × Value) → Prop
  | [] => True
  | (_, value) :: rest => value.IsWhole ∧ Value.EntriesWhole rest

end

namespace Json

mutual

def lexemes : Value → List Lexeme
  | .null => [.null]
  | .bool b => [.bool b]
  | .number n => [.number (.ok n)]
  | .text s => [.text (.ok s)]
  | .array items => .openBracket :: (itemLexemes items ++ [.closeBracket])
  | .object entries => .openBrace :: (entryLexemes entries ++ [.closeBrace])

def itemLexemes : List Value → List Lexeme
  | [] => []
  | [item] => lexemes item
  | item :: rest => lexemes item ++ .comma :: itemLexemes rest

def entryLexemes : List (String × Value) → List Lexeme
  | [] => []
  | [(key, value)] => .text (.ok key) :: .colon :: lexemes value
  | (key, value) :: rest =>
      .text (.ok key) :: .colon :: (lexemes value ++ .comma :: entryLexemes rest)

end

/-- What does not continue a numeral. -/
def EndsNumeral (rest : List Char) : Prop :=
  ∀ c, rest.head? = some c → Text.isDigit c = false ∧ c ≠ '.' ∧ c ≠ 'e' ∧ c ≠ 'E'

/-- The characters are read as the lexemes wherever they stand. -/
def Lexes (cs : List Char) (found : List Lexeme) : Prop :=
  ∀ size index rest, EndsNumeral rest →
    ∃ tokens after, tokens.map Token.lexeme = found ∧
      tokensFrom size index 0 (cs ++ rest) = tokens ++ tokensFrom size after 0 rest

theorem tokensFrom_skip (size index : Nat) (cs rest : List Char) :
    ∃ after, tokensFrom size index cs.length (cs ++ rest) = tokensFrom size after 0 rest := by
  induction cs generalizing index with
  | nil => exact ⟨index, rfl⟩
  | cons c more ih =>
      obtain ⟨after, hafter⟩ := ih (index + c.utf8Size)
      exact ⟨after, hafter⟩

/-- One lexeme is found and the search goes on behind it. -/
theorem tokensFrom_lexeme {size index : Nat} {c : Char} {cs rest : List Char} {l : Lexeme}
    (hspace : isSpace c = false) (hwhole : l.isWhole = true)
    (h : lexeme ⟨index, size⟩ c (cs ++ rest) = (l, cs.length + 1)) :
    ∃ after, tokensFrom size index 0 (c :: (cs ++ rest)) =
      ⟨index + 1, l⟩ :: tokensFrom size after 0 rest := by
  obtain ⟨after, hafter⟩ := tokensFrom_skip size (index + c.utf8Size) cs rest
  refine ⟨after, ?_⟩
  rw [tokensFrom, hspace, h]
  simp only [hwhole, Bool.false_eq_true, if_false, if_true, Nat.add_sub_cancel, hafter]

theorem lexes_of_lexeme {c : Char} {cs : List Char} {l : Lexeme} (hspace : isSpace c = false)
    (hwhole : l.isWhole = true)
    (h : ∀ p rest, EndsNumeral rest → lexeme p c (cs ++ rest) = (l, cs.length + 1)) :
    Lexes (c :: cs) [l] := by
  intro size index rest hrest
  obtain ⟨after, hafter⟩ := tokensFrom_lexeme hspace hwhole (h ⟨index, size⟩ rest hrest)
  exact ⟨[⟨index + 1, l⟩], after, rfl, hafter⟩

/-- Brackets, braces, colons and commas do not depend on what follows them. -/
theorem Lexes.mark {c : Char} {cs : List Char} {l : Lexeme} {found : List Lexeme}
    (hspace : isSpace c = false) (hwhole : l.isWhole = true)
    (hmark : ∀ p rest, lexeme p c rest = (l, 1)) (h : Lexes cs found) :
    Lexes (c :: cs) (l :: found) := by
  intro size index rest hrest
  have hstart : lexeme ⟨index, size⟩ c ([] ++ (cs ++ rest)) = (l, 1) := hmark _ _
  obtain ⟨after, hafter⟩ := tokensFrom_lexeme hspace hwhole hstart
  obtain ⟨tokens, last, hfound, htokens⟩ := h size after rest hrest
  refine ⟨⟨index + 1, l⟩ :: tokens, last, by rw [List.map_cons, hfound], ?_⟩
  rw [List.cons_append, List.cons_append, ← htokens]
  exact hafter

/-- Two parts are split apart if the second ends a numeral of the first. -/
theorem Lexes.append {first second : List Char} {a b : List Lexeme} (ha : Lexes first a)
    (hb : Lexes second b) (hends : ∀ rest, EndsNumeral (second ++ rest)) :
    Lexes (first ++ second) (a ++ b) := by
  intro size index rest hrest
  obtain ⟨left, middle, hleft, hfirst⟩ := ha size index (second ++ rest) (hends rest)
  obtain ⟨right, after, hright, hsecond⟩ := hb size middle rest hrest
  refine ⟨left ++ right, after, by rw [List.map_append, hleft, hright], ?_⟩
  rw [List.append_assoc, hfirst, hsecond, List.append_assoc]

theorem lexes_nil : Lexes [] [] :=
  fun _ index _ _ => ⟨[], index, rfl, rfl⟩

theorem endsNumeral_cons {c : Char} (h : Text.isDigit c = false ∧ c ≠ '.' ∧ c ≠ 'e' ∧ c ≠ 'E')
    (rest : List Char) : EndsNumeral (c :: rest) := by
  intro d hd
  obtain rfl : c = d := Option.some.inj hd
  exact h

theorem naturalOf_decimal (n : Nat) : Text.naturalOf (Text.decimal n) = n := by
  have hfold : ∀ (digits : List Char) (total : Nat),
      (∀ d ∈ digits, Text.isDigit d = true) →
      digits.foldl (fun total c => total * 10 + Text.digitValue c) total =
        Nat.ofDigitChars 10 digits total := by
    intro digits
    induction digits with
    | nil => intros; rfl
    | cons d rest ih =>
        intro total hdigits
        have hvalue : Text.digitValue d = d.toNat - '0'.toNat :=
          if_pos (hdigits d List.mem_cons_self)
        rw [List.foldl_cons, Nat.ofDigitChars_cons, hvalue, Nat.mul_comm total 10]
        exact ih _ fun c hc => hdigits c (List.mem_cons_of_mem d hc)
  unfold Text.naturalOf
  rw [hfold _ 0 fun d hd => Go.isDigit_of_mem_decimal hd]
  exact Nat.ofDigitChars_ten_toDigits

/-- Only zero starts with a zero. -/
theorem head?_decimal {n : Nat} (h : n ≠ 0) : (Text.decimal n).head? ≠ some '0' := by
  unfold Text.decimal
  induction n using Nat.strongRecOn with
  | ind n ih =>
      by_cases hsmall : n < 10
      · rw [Nat.toDigits_of_lt_base hsmall]
        have hdigit : ∀ m < 10, m ≠ 0 → [m.digitChar].head? ≠ some '0' := by decide
        exact hdigit n hsmall h
      · rw [Nat.toDigits_of_base_le (by decide) (by omega)]
        have hhead := ih (n / 10) (by omega) (by omega)
        obtain ⟨d, rest, hdigits⟩ : ∃ d rest, Nat.toDigits 10 (n / 10) = d :: rest :=
          List.exists_cons_of_ne_nil Nat.toDigits_ne_nil
        rw [hdigits] at hhead ⊢
        exact hhead

theorem afterWhole_of_ends {rest : List Char} (hrest : EndsNumeral rest) (p : Place)
    (numeral : Numeral) (done : Nat) :
    afterWhole p numeral rest done = numberLexeme p numeral done := by
  unfold afterWhole
  split
  · exact absurd rfl (hrest _ rfl).2.1
  · unfold afterDigits
    split
    · exact absurd rfl (hrest _ rfl).2.2.1
    · exact absurd rfl (hrest _ rfl).2.2.2
    · rfl

theorem takeWhile_decimal {n : Nat} {rest : List Char} (hrest : EndsNumeral rest) :
    (Text.decimal n ++ rest).takeWhile Text.isDigit = Text.decimal n := by
  rw [List.takeWhile_append_of_pos fun d hd => Go.isDigit_of_mem_decimal hd]
  cases rest with
  | nil => simp
  | cons c more =>
      rw [List.takeWhile_cons_of_neg (by rw [(hrest c rfl).1]; decide), List.append_nil]

theorem numeralPart_decimal {rest : List Char} (hrest : EndsNumeral rest) (p : Place)
    (negative : Bool) (n done : Nat) :
    numeralPart p negative (Text.decimal n ++ rest) done =
      numberLexeme p ⟨negative, Text.decimal n, none, none⟩
        (done + (Text.decimal n).length) := by
  by_cases hzero : n = 0
  · subst hzero
    have hnext : (rest.head?.map Text.isDigit).getD false = false := by
      cases rest with
      | nil => rfl
      | cons c more => exact (hrest c rfl).1
    have hdecimal : Text.decimal 0 = ['0'] := by decide
    rw [hdecimal, List.singleton_append, numeralPart, hnext]
    exact afterWhole_of_ends hrest p _ _
  · obtain ⟨d, digits, hdigits⟩ : ∃ d digits, Text.decimal n = d :: digits :=
      List.exists_cons_of_ne_nil Nat.toDigits_ne_nil
    have hstart : d ≠ '0' := by
      intro heq
      apply head?_decimal hzero
      rw [hdigits, heq]
      rfl
    have hdigit : Text.isDigit d = true := by
      apply Go.isDigit_of_mem_decimal
      rw [hdigits]
      exact List.mem_cons_self
    have htake := @takeWhile_decimal n rest hrest
    rw [hdigits, List.cons_append] at htake ⊢
    unfold numeralPart
    split
    · next heq => cases heq
    · next heq => exact absurd (List.cons.inj heq).1 hstart
    · next c more _ heq =>
        obtain ⟨rfl, rfl⟩ := List.cons.inj heq
        rw [if_pos hdigit, htake]
        dsimp only
        rw [← List.cons_append, List.drop_left]
        exact afterWhole_of_ends hrest p _ _

/-- A whole number is written as its sign and its digits, and these stand for it. -/
theorem number_decimal {n : Number} (h : n.IsWhole) :
    ∃ negative digits, Numeral.number ⟨negative, Text.decimal digits, none, none⟩ = .ok n ∧
      numberChars n = (if negative then ['-'] else []) ++ Text.decimal digits := by
  cases n with
  | natural n =>
      refine ⟨false, n, ?_, rfl⟩
      unfold Numeral.number
      dsimp only
      rw [naturalOf_decimal, if_neg Bool.false_ne_true]
      exact if_pos h
  | negative n =>
      refine ⟨true, n, ?_, rfl⟩
      unfold Numeral.number
      dsimp only
      rw [naturalOf_decimal, if_pos rfl, if_pos]
      simpa [Number.IsWhole] using h
  | binary x => exact h.elim

theorem lexeme_digit {c : Char} (h : Text.isDigit c = true) (p : Place) (rest : List Char) :
    lexeme p c rest = numeralPart p false (c :: rest) 0 := by
  unfold lexeme
  split
  case h_12 => exact if_pos h
  all_goals exact absurd h (by decide)

theorem lexes_number {n : Number} (h : n.IsWhole) :
    Lexes (numberChars n) [.number (.ok n)] := by
  obtain ⟨negative, digits, hnumber, hchars⟩ := number_decimal h
  have hlexeme : ∀ (p : Place) (length : Nat),
      numberLexeme p ⟨negative, Text.decimal digits, none, none⟩ length =
        (.number (.ok n), length) := by
    intro p length
    unfold numberLexeme
    rw [hnumber]
  rw [hchars]
  cases negative with
  | true =>
      rw [if_pos rfl, List.singleton_append]
      refine lexes_of_lexeme rfl rfl ?_
      intro p rest hrest
      have hstart : lexeme p '-' (Text.decimal digits ++ rest) =
          numeralPart p true (Text.decimal digits ++ rest) 1 := rfl
      rw [hstart, numeralPart_decimal hrest, hlexeme, Nat.add_comm]
  | false =>
      obtain ⟨d, more, hdigits⟩ : ∃ d more, Text.decimal digits = d :: more :=
        List.exists_cons_of_ne_nil Nat.toDigits_ne_nil
      have hdigit : Text.isDigit d = true := by
        apply Go.isDigit_of_mem_decimal
        rw [hdigits]
        exact List.mem_cons_self
      have hspace : isSpace d = false := by
        cases hd : isSpace d with
        | false => rfl
        | true =>
            simp only [isSpace, Bool.or_eq_true, beq_iff_eq] at hd
            rcases hd with ((rfl | rfl) | rfl) | rfl <;> cases hdigit
      rw [if_neg Bool.false_ne_true, List.nil_append, hdigits]
      refine lexes_of_lexeme hspace rfl ?_
      intro p rest hrest
      rw [lexeme_digit hdigit, ← List.cons_append, ← hdigits, numeralPart_decimal hrest, hlexeme,
        hdigits, Nat.zero_add, List.length_cons]

theorem lexes_null : Lexes "null".toList [.null] :=
  lexes_of_lexeme rfl rfl fun _ _ _ => rfl

theorem lexes_bool (b : Bool) : Lexes (compactChars (.bool b)) [.bool b] := by
  cases b with
  | true => exact lexes_of_lexeme rfl rfl fun _ _ _ => rfl
  | false => exact lexes_of_lexeme rfl rfl fun _ _ _ => rfl

theorem hexNaturalOf?_hexPair {n : Nat} (h : n < 256) :
    Text.hexNaturalOf? ['0', '0', Text.hexDigit (n / 16 % 16), Text.hexDigit (n % 16)] =
      some n := by
  have hzero : Text.hexValue? '0' = some 0 := by decide
  have hvalue : n / 16 % 16 * 16 + n % 16 = n := by omega
  simp [Text.hexNaturalOf?, hzero, Go.hexValue?_hexDigit _ (Nat.mod_lt _ (by decide)), hvalue]

/-- Reading a string goes on behind the spelling of a character, with the character. -/
theorem stringPart_escapeChar (size index done : Nat) (read : List Char) (c : Char)
    (rest : List Char) :
    ∃ after, stringPart size index done read none none (escapeChar c ++ rest) =
      stringPart size after (done + (escapeChar c).length) (c :: read) none none rest := by
  unfold escapeChar
  split_ifs with hquote hslash hfeed hreturn htab hback hform hcontrol
  · subst hquote
    exact ⟨_, rfl⟩
  · subst hslash
    exact ⟨_, rfl⟩
  · subst hfeed
    exact ⟨_, rfl⟩
  · subst hreturn
    exact ⟨_, rfl⟩
  · subst htab
    exact ⟨_, rfl⟩
  · subst hback
    exact ⟨_, rfl⟩
  · subst hform
    exact ⟨_, rfl⟩
  · have hhigh : isHighHalf c.toNat = false := by
      simp only [isHighHalf, Bool.and_eq_false_iff, decide_eq_false_iff_not]
      omega
    have hlow : isLowHalf c.toNat = false := by
      simp only [isLowHalf, Bool.and_eq_false_iff, decide_eq_false_iff_not]
      omega
    refine ⟨index + 6, ?_⟩
    rw [Text.hexPair, List.cons_append, List.cons_append, List.cons_append, List.cons_append,
      List.cons_append, List.cons_append, List.nil_append, stringPart,
      hexNaturalOf?_hexPair (by omega)]
    simp only [hhigh, hlow, Bool.false_eq_true, if_false, Char.ofNat_toNat]
    rfl
  · refine ⟨index + c.utf8Size, ?_⟩
    rw [List.singleton_append, stringPart]
    · rw [if_neg hcontrol]
      rfl
    · exact hquote
    · exact fun h _ => hslash h
    · exact fun _ _ _ _ _ h _ => hslash h
    · exact fun _ h _ => hslash h
    · exact fun _ _ h _ => hslash h

/-- An escaped text is read up to its quote, whatever it holds. -/
theorem stringPart_string (size index done : Nat) (read cs rest : List Char) :
    stringPart size index done read none none (cs.flatMap escapeChar ++ '"' :: rest) =
      (.text (.ok (String.ofList (read.reverse ++ cs))),
        done + (cs.flatMap escapeChar).length + 1) := by
  induction cs generalizing index done read with
  | nil =>
      rw [List.append_nil]
      rfl
  | cons c more ih =>
      obtain ⟨after, hafter⟩ := stringPart_escapeChar size index done read c
        (more.flatMap escapeChar ++ '"' :: rest)
      rw [List.flatMap_cons, List.append_assoc, hafter, ih, List.reverse_cons, List.append_assoc,
        List.singleton_append, List.length_append, Nat.add_assoc done]

theorem lexes_string (s : String) : Lexes (stringChars s) [.text (.ok s)] := by
  refine lexes_of_lexeme rfl rfl ?_
  intro p rest _
  have hread := stringPart_string p.size (p.index + 1) 1 [] s.toList rest
  rw [List.reverse_nil, List.nil_append, String.ofList_toList] at hread
  rw [List.append_assoc, List.singleton_append, List.length_append, List.length_singleton]
  exact hread.trans (by rw [Nat.add_comm 1])

mutual

/-- A value written in one line has its lexemes, by recursion on the value. -/
theorem lexes_compact : ∀ v : Value, v.IsWhole → Lexes (compactChars v) (lexemes v)
  | .null, _ => lexes_null
  | .bool b, _ => lexes_bool b
  | .number _, h => lexes_number h
  | .text s, _ => lexes_string s
  | .array items, h => by
      refine Lexes.mark rfl rfl (fun _ _ => rfl) ?_
      exact (lexes_compactItems items h).append
        (lexes_nil.mark rfl rfl (fun _ _ => rfl)) (endsNumeral_cons (by decide))
  | .object entries, h => by
      refine Lexes.mark rfl rfl (fun _ _ => rfl) ?_
      exact (lexes_compactEntries entries h).append
        (lexes_nil.mark rfl rfl (fun _ _ => rfl)) (endsNumeral_cons (by decide))

theorem lexes_compactItems : ∀ items : List Value, Value.AllWhole items →
    Lexes (compactItems items) (itemLexemes items)
  | [], _ => lexes_nil
  | [item], h => lexes_compact item h.1
  | item :: next :: rest, h => by
      refine (lexes_compact item h.1).append ?_ (endsNumeral_cons (by decide))
      exact (lexes_compactItems (next :: rest) h.2).mark rfl rfl fun _ _ => rfl

theorem lexes_compactEntries : ∀ entries : List (String × Value), Value.EntriesWhole entries →
    Lexes (compactEntries entries) (entryLexemes entries)
  | [], _ => lexes_nil
  | [(key, value)], h => by
      refine (lexes_string key).append ?_ (endsNumeral_cons (by decide))
      exact (lexes_compact value h.1).mark rfl rfl fun _ _ => rfl
  | (key, value) :: next :: rest, h => by
      refine (lexes_string key).append ?_ (endsNumeral_cons (by decide))
      refine Lexes.mark rfl rfl (fun _ _ => rfl) ?_
      refine (lexes_compact value h.1).append ?_ (endsNumeral_cons (by decide))
      exact (lexes_compactEntries (next :: rest) h.2).mark rfl rfl fun _ _ => rfl

end

end Json

end GioForge
