import GioForge.Proofs.Go.Interpreted

/-!
A scanner for the part of Go that the generated programs keep to: names, decimal
numbers, interpreted string literals, line comments, white space and operators of
single characters. Everything else is refused, in particular raw strings, runes,
general comments, division and letters beyond ASCII outside literals and comments;
a text that is scanned therefore has no such thing. White space and comments are
tokens too, so that the tokens of a text spell the whole text.

The scanner is a machine that takes one character at a time. A name, a number or a
comment ends when a character comes that does not extend it, and what it is can then
be put out; a literal ends at its closing quote and cannot be cut off.
-/

namespace GioForge.Go

/-- A piece of a source text. -/
inductive Token where
  /-- White space, one character. -/
  | blank (c : Char)
  /-- What follows two slashes on a line. -/
  | comment (text : String)
  /-- A name or a keyword. -/
  | word (text : String)
  /-- A number. -/
  | number (text : String)
  /-- A string literal: what stands between its quotes, and the bytes it denotes. -/
  | literal (contents : String) (bytes : List UInt8)
  /-- One character of an operator or a bracket. -/
  | mark (c : Char)
  deriving DecidableEq

def Token.spelling : Token → List Char
  | .blank c => [c]
  | .comment text => '/' :: '/' :: text.toList
  | .word text => text.toList
  | .number text => text.toList
  | .literal contents _ => '"' :: contents.toList ++ ['"']
  | .mark c => [c]

def isSpace (c : Char) : Bool :=
  c == ' ' || c == '\t' || c == '\n' || c == '\r'

def isLetter (c : Char) : Bool :=
  ('a' ≤ c && c ≤ 'z') || ('A' ≤ c && c ≤ 'Z') || c == '_'

def isWordChar (c : Char) : Bool :=
  isLetter c || Text.isDigit c

def isMark (c : Char) : Bool :=
  ['.', '(', ')', ',', '\x7b', '\x7d', ':', '=', '&', '[', ']', ';', '+', '-', '*', '%', '|', '^',
    '<', '>', '!', '~'].contains c

/-- What a scanner has read of the token it is in. -/
inductive State where
  | between
  | word (read : List Char)
  | number (read : List Char)
  | slash
  | comment (read : List Char)
  | literal (read : List Char) (bytes : List UInt8) (reading : Reading)

namespace State

def start (c : Char) : Option (List Token × State) :=
  if isSpace c then some ([.blank c], .between)
  else if isLetter c then some ([], .word [c])
  else if Text.isDigit c then some ([], .number [c])
  else if c = '"' then some ([], .literal [] [] .plain)
  else if c = '/' then some ([], .slash)
  else if isMark c then some ([.mark c], .between)
  else none

/-- The token a character extends, if it extends the one that was begun. -/
def extend? : State → Char → Option State
  | .word read, c => if isWordChar c then some (.word (read ++ [c])) else none
  | .number read, c => if isWordChar c then some (.number (read ++ [c])) else none
  | .slash, c => if c = '/' then some (.comment []) else none
  | .comment read, c => if c = '\n' then none else some (.comment (read ++ [c]))
  | .between, _ => none
  | .literal _ _ _, _ => none

def flush : State → Option (List Token)
  | .between => some []
  | .word read => some [.word (String.ofList read)]
  | .number read => some [.number (String.ofList read)]
  | .slash => none
  | .comment read => some [.comment (String.ofList read)]
  | .literal _ _ _ => none

def advance (s : State) (c : Char) : Option (List Token × State) :=
  match s.extend? c with
  | some next => some ([], next)
  | none => do
      let done ← s.flush
      let (tokens, next) ← start c
      return (done ++ tokens, next)

def step : State → Char → Option (List Token × State)
  | .literal read bytes reading, c =>
      if reading = .plain ∧ c = '"' then
        some ([.literal (String.ofList read) bytes], .between)
      else do
        let (out, next) ← reading.step c
        return ([], .literal (read ++ [c]) (bytes ++ out) next)
  | s, c => s.advance c

/-- The characters read and not yet put out. -/
def pending : State → List Char
  | .between => []
  | .word read => read
  | .number read => read
  | .slash => ['/']
  | .comment read => '/' :: '/' :: read
  | .literal read _ _ => '"' :: read

end State

def lex (source : String) : Option (List Token) := do
  let (tokens, last) ← transduce State.step .between source.toList
  let done ← last.flush
  return tokens ++ done

namespace State

theorem spelling_start {c : Char} {tokens : List Token} {next : State}
    (h : start c = some (tokens, next)) :
    tokens.flatMap Token.spelling ++ next.pending = [c] := by
  unfold start at h
  split_ifs at h with hspace hletter hdigit hquote hslash hmark
  all_goals
    obtain ⟨rfl, rfl⟩ := Prod.mk.inj (Option.some.inj h)
    simp_all [Token.spelling, pending]

theorem pending_extend {s next : State} {c : Char} (h : s.extend? c = some next) :
    next.pending = s.pending ++ [c] := by
  cases s with
  | between => simp [extend?] at h
  | word read =>
      obtain ⟨_, rfl⟩ : isWordChar c = true ∧ State.word (read ++ [c]) = next := by
        simpa [extend?] using h
      rfl
  | number read =>
      obtain ⟨_, rfl⟩ : isWordChar c = true ∧ State.number (read ++ [c]) = next := by
        simpa [extend?] using h
      rfl
  | slash =>
      obtain ⟨rfl, rfl⟩ : c = '/' ∧ State.comment [] = next := by
        simpa [extend?] using h
      rfl
  | comment read =>
      obtain ⟨_, rfl⟩ : c ≠ '\n' ∧ State.comment (read ++ [c]) = next := by
        simpa [extend?] using h
      rfl
  | literal read bytes reading => simp [extend?] at h

theorem spelling_flush {s : State} {done : List Token} (h : s.flush = some done) :
    done.flatMap Token.spelling = s.pending := by
  cases s <;> simp only [flush, Option.some.injEq, reduceCtorEq] at h
  all_goals
    subst h
    simp [Token.spelling, pending]

/-- A step loses no character: all are in the tokens that were found or still being read. -/
theorem spelling_advance {s next : State} {c : Char} {tokens : List Token}
    (h : s.advance c = some (tokens, next)) :
    tokens.flatMap Token.spelling ++ next.pending = s.pending ++ [c] := by
  unfold advance at h
  cases hextend : s.extend? c with
  | some extended =>
      obtain ⟨rfl, rfl⟩ : [] = tokens ∧ extended = next := by simpa [hextend] using h
      simpa using pending_extend hextend
  | none =>
      simp only [hextend, Option.bind_eq_bind, Option.bind_eq_some_iff] at h
      obtain ⟨done, hflush, ⟨begun, state⟩, hstart, heq⟩ := h
      obtain ⟨rfl, rfl⟩ : done ++ begun = tokens ∧ state = next := by simpa using heq
      rw [List.flatMap_append, List.append_assoc, spelling_start hstart,
        spelling_flush hflush]

/-- One step neither loses nor invents a character. -/
theorem spelling_step {s next : State} {c : Char} {tokens : List Token}
    (h : s.step c = some (tokens, next)) :
    tokens.flatMap Token.spelling ++ next.pending = s.pending ++ [c] := by
  cases s with
  | literal read bytes reading =>
      simp only [step] at h
      split at h
      · next hclose =>
          obtain ⟨rfl, rfl⟩ := Prod.mk.inj (Option.some.inj h)
          simp [Token.spelling, pending, hclose.2]
      · simp only [Option.bind_eq_bind, Option.bind_eq_some_iff] at h
        obtain ⟨⟨out, reading'⟩, _, heq⟩ := h
        obtain ⟨rfl, rfl⟩ := Prod.mk.inj (Option.some.inj heq)
        simp [pending]
  | between => exact spelling_advance h
  | word read => exact spelling_advance h
  | number read => exact spelling_advance h
  | slash => exact spelling_advance h
  | comment read => exact spelling_advance h

/-- So nothing is lost in a run. -/
theorem spelling_transduce {s last : State} {cs : List Char} {tokens : List Token}
    (h : transduce step s cs = some (tokens, last)) :
    tokens.flatMap Token.spelling ++ last.pending = s.pending ++ cs := by
  induction cs generalizing s tokens with
  | nil =>
      obtain ⟨rfl, rfl⟩ : [] = tokens ∧ s = last := by simpa [transduce] using h
      simp
  | cons c rest ih =>
      simp only [transduce, Option.bind_eq_bind, Option.bind_eq_some_iff] at h
      obtain ⟨⟨out, next⟩, hstep, ⟨more, state⟩, hrest, heq⟩ := h
      obtain ⟨rfl, rfl⟩ : out ++ more = tokens ∧ state = last := by simpa using heq
      rw [List.flatMap_append, List.append_assoc, ih hrest, ← List.append_assoc,
        spelling_step hstep, List.append_assoc, List.singleton_append]

end State

/-- The tokens of a text, put together, are the text. -/
theorem spelling_lex {source : String} {tokens : List Token} (h : lex source = some tokens) :
    tokens.flatMap Token.spelling = source.toList := by
  simp only [lex, Option.bind_eq_bind, Option.bind_eq_some_iff] at h
  obtain ⟨⟨read, last⟩, hread, done, hflush, heq⟩ := h
  obtain rfl : read ++ done = tokens := by simpa using heq
  rw [List.flatMap_append, State.spelling_flush hflush, State.spelling_transduce hread]
  rfl

namespace State

/-- Where a token may end and a character does not extend it, the character is taken as it
would be between tokens. -/
theorem step_of_flush {s next : State} {c : Char} {done tokens : List Token}
    (hextend : s.extend? c = none) (hflush : s.flush = some done)
    (hstart : State.between.step c = some (tokens, next)) :
    s.step c = some (done ++ tokens, next) := by
  have hbegin : start c = some (tokens, next) := by
    have hadvance : State.between.advance c = some (tokens, next) := hstart
    simp only [advance, extend?, flush, Option.bind_eq_bind, Option.bind_some,
      Option.bind_eq_some_iff] at hadvance
    obtain ⟨begun, hbegun, heq⟩ := hadvance
    exact hbegun.trans heq
  have hadvance : s.advance c = some (done ++ tokens, next) := by
    simp [advance, hextend, hflush, hbegin]
  cases s with
  | literal read bytes reading => simp [flush] at hflush
  | _ => exact hadvance

/-- A character that ends a token is read again from between the tokens. -/
theorem transduce_of_flush {s last : State} {c : Char} {rest : List Char}
    {done tokens : List Token} (hextend : s.extend? c = none)
    (hflush : s.flush = some done)
    (hrest : transduce step .between (c :: rest) = some (tokens, last)) :
    transduce step s (c :: rest) = some (done ++ tokens, last) := by
  simp only [transduce, Option.bind_eq_bind, Option.bind_eq_some_iff] at hrest
  obtain ⟨⟨out, next⟩, hstep, ⟨more, state⟩, hmore, heq⟩ := hrest
  obtain ⟨rfl, rfl⟩ := Prod.mk.inj (Option.some.inj heq)
  rw [← List.append_assoc]
  exact transduce_cons (step_of_flush hextend hflush hstep) hmore

/-- A line feed ends whatever may end. -/
theorem step_line_feed {s : State} {done : List Token} (hflush : s.flush = some done) :
    s.step '\n' = some (done ++ [.blank '\n'], .between) := by
  apply step_of_flush _ hflush rfl
  cases s <;> rfl

/-- Names and numbers take all the word characters that follow. -/
theorem transduce_run (run : List Char → State)
    (hrun : ∀ read c, isWordChar c = true → (run read).step c = some ([], run (read ++ [c])))
    (read cs : List Char) (hcs : ∀ c ∈ cs, isWordChar c = true) :
    transduce step (run read) cs = some ([], run (read ++ cs)) := by
  induction cs generalizing read with
  | nil => simp [transduce]
  | cons c rest ih =>
      have hstep := hrun read c (hcs c (by simp))
      have hrest := ih (read ++ [c]) fun d hd => hcs d (by simp [hd])
      rw [List.append_assoc, List.singleton_append] at hrest
      exact transduce_cons hstep hrest

theorem step_word (read : List Char) (c : Char) (hc : isWordChar c = true) :
    (State.word read).step c = some ([], .word (read ++ [c])) := by
  simp [step, advance, extend?, hc]

theorem step_number (read : List Char) (c : Char) (hc : isWordChar c = true) :
    (State.number read).step c = some ([], .number (read ++ [c])) := by
  simp [step, advance, extend?, hc]

/-- Inside a literal the scanner follows the reader of literals. -/
theorem transduce_literal {reading last : Reading} {cs : List Char} {out : List UInt8}
    (h : transduce Reading.step reading cs = some (out, last)) (read : List Char)
    (bytes : List UInt8) :
    transduce step (.literal read bytes reading) cs =
      some ([], .literal (read ++ cs) (bytes ++ out) last) := by
  induction cs generalizing reading out read bytes with
  | nil =>
      obtain ⟨rfl, rfl⟩ : [] = out ∧ reading = last := by simpa [transduce] using h
      simp [transduce]
  | cons c rest ih =>
      simp only [transduce, Option.bind_eq_bind, Option.bind_eq_some_iff] at h
      obtain ⟨⟨first, next⟩, hstep, ⟨more, state⟩, hrest, heq⟩ := h
      obtain ⟨rfl, rfl⟩ := Prod.mk.inj (Option.some.inj heq)
      -- A closing quote is the one character that the reader of literals does not take here.
      have hopen : ¬ (reading = .plain ∧ c = '"') := by
        rintro ⟨rfl, rfl⟩
        simp [Reading.step] at hstep
      have htake : (State.literal read bytes reading).step c =
          some ([], .literal (read ++ [c]) (bytes ++ first) next) := by
        simp [step, hopen, hstep]
      have hmore := ih hrest (read ++ [c]) (bytes ++ first)
      rw [List.append_assoc, List.singleton_append, List.append_assoc] at hmore
      exact transduce_cons htake hmore

/-- A text that was quoted is scanned as one literal. -/
theorem transduce_quote (s : String) :
    transduce step .between (quote s).toList =
      some ([.literal (escape s) (utf8 s)], .between) := by
  have hopen : State.between.step '"' = some ([], .literal [] [] .plain) := rfl
  have hbody : transduce step (.literal [] [] .plain) (escape s).toList =
      some ([], .literal (escape s).toList (utf8 s) .plain) := by
    simpa using transduce_literal (read_escape s) [] []
  have hclose : (State.literal (escape s).toList (utf8 s) .plain).step '"' =
      some ([.literal (escape s) (utf8 s)], .between) := by
    simp [step]
  have htext : (quote s).toList = '"' :: ((escape s).toList ++ ['"']) := by
    simp [quote]
  have hread := transduce_cons hopen (transduce_append hbody (transduce_singleton hclose))
  rw [htext]
  exact hread

end State

/-- A text after which no token is open can be scanned apart from what follows. -/
theorem lex_append {first second : String} {tokens more : List Token}
    (hfirst : transduce State.step .between first.toList = some (tokens, .between))
    (hsecond : lex second = some more) :
    lex (first ++ second) = some (tokens ++ more) := by
  simp only [lex, Option.bind_eq_bind, Option.bind_eq_some_iff] at hsecond
  obtain ⟨⟨read, last⟩, hread, done, hflush, heq⟩ := hsecond
  obtain rfl : read ++ done = more := by simpa using heq
  simp [lex, transduce_append hfirst hread, hflush]

/-- A quoted text is one literal, whatever it holds and whatever follows. -/
theorem lex_quote_append {s second : String} {more : List Token} (h : lex second = some more) :
    lex (quote s ++ second) = some (.literal (escape s) (utf8 s) :: more) :=
  lex_append (State.transduce_quote s) h

/-- No character at the start of the text could extend a name or a number. -/
def Stops (text : String) : Prop :=
  ∀ c ∈ text.toList.head?, isWordChar c = false

/-- A name, or a number, can be scanned apart from a text that could not extend it. -/
theorem lex_append_of_stops {first second : String} {s : State} {token : Token}
    {more : List Token}
    (hfirst : transduce State.step .between first.toList = some ([], s))
    (hflush : s.flush = some [token])
    (hextend : ∀ c, isWordChar c = false → s.extend? c = none)
    (hstops : Stops second) (hsecond : lex second = some more) :
    lex (first ++ second) = some (token :: more) := by
  simp only [lex, Option.bind_eq_bind, Option.bind_eq_some_iff] at hsecond
  obtain ⟨⟨read, last⟩, hread, done, hdone, heq⟩ := hsecond
  obtain rfl : read ++ done = more := by simpa using heq
  cases hchars : second.toList with
  | nil =>
      rw [hchars] at hread
      obtain ⟨rfl, rfl⟩ : [] = read ∧ State.between = last := by
        simpa [transduce] using hread
      obtain rfl : [] = done := by simpa [State.flush] using hdone
      simp [lex, hchars, hfirst, hflush]
  | cons c rest =>
      have hc : isWordChar c = false := hstops c (by simp [hchars])
      rw [hchars] at hread
      have hrest := State.transduce_of_flush (hextend c hc) hflush hread
      simp [lex, hchars, transduce_append hfirst hrest, hdone]

/-- Texts that are names: a letter, then letters and digits. -/
def IsName (name : String) : Prop :=
  ∃ c rest, name.toList = c :: rest ∧ isLetter c = true ∧ ∀ d ∈ rest, isWordChar d = true

theorem not_isSpace_of_isWordChar {c : Char} (hc : isWordChar c = true) : isSpace c = false := by
  by_contra hspace
  simp only [isSpace, Bool.not_eq_false, Bool.or_eq_true, beq_iff_eq] at hspace
  rcases hspace with ((rfl | rfl) | rfl) | rfl <;> simp [isWordChar, isLetter, Text.isDigit] at hc

theorem lex_name_append {name second : String} {more : List Token} (hname : IsName name)
    (hstops : Stops second) (hsecond : lex second = some more) :
    lex (name ++ second) = some (.word name :: more) := by
  obtain ⟨c, rest, hchars, hletter, hrest⟩ := hname
  have hspace : isSpace c = false := not_isSpace_of_isWordChar (by simp [isWordChar, hletter])
  have hstart : State.between.step c = some ([], .word [c]) := by
    simp [State.step, State.advance, State.extend?, State.flush, State.start, hspace, hletter]
  have hread : transduce State.step .between name.toList = some ([], .word name.toList) := by
    rw [hchars]
    exact transduce_cons hstart (State.transduce_run .word State.step_word [c] rest hrest)
  refine lex_append_of_stops hread (by simp [State.flush]) ?_ hstops hsecond
  intro d hd
  simp [State.extend?, hd]

theorem isDigit_of_mem_decimal {n : Nat} {c : Char} (hc : c ∈ Text.decimal n) :
    Text.isDigit c = true := by
  have hdigit := Nat.isDigit_of_mem_toDigits (by decide) (by decide) hc
  simpa [Text.isDigit, Char.isDigit, Char.le_def] using hdigit

theorem isWordChar_of_isDigit {c : Char} (hc : Text.isDigit c = true) :
    isWordChar c = true := by
  simp [isWordChar, hc]

theorem not_isLetter_of_isDigit {c : Char} (hc : Text.isDigit c = true) :
    isLetter c = false := by
  simp only [Text.isDigit, Bool.and_eq_true, decide_eq_true_eq, Char.le_def,
    UInt32.le_iff_toNat_le] at hc
  have hle : c.val.toNat ≤ 57 := hc.2
  have hlower : ¬ 'a' ≤ c := by
    intro h
    have hge : 97 ≤ c.val.toNat := h
    omega
  have hupper : ¬ 'A' ≤ c := by
    intro h
    have hge : 65 ≤ c.val.toNat := h
    omega
  have hline : ¬ c = '_' := by
    rintro rfl
    exact absurd hle (by decide)
  simp [isLetter, hlower, hupper, hline]

theorem lex_decimal_append {n : Nat} {second : String} {more : List Token}
    (hstops : Stops second) (hsecond : lex second = some more) :
    lex (Text.decimalText n ++ second) = some (.number (Text.decimalText n) :: more) := by
  cases hchars : Text.decimal n with
  | nil => exact absurd hchars Nat.toDigits_ne_nil
  | cons c rest =>
      have hdigits : ∀ d ∈ c :: rest, Text.isDigit d = true := by
        intro d hd
        exact isDigit_of_mem_decimal (hchars ▸ hd)
      have hc : Text.isDigit c = true := hdigits c (by simp)
      have hstart : State.between.step c = some ([], .number [c]) := by
        simp [State.step, State.advance, State.extend?, State.flush, State.start,
          not_isSpace_of_isWordChar (isWordChar_of_isDigit hc), not_isLetter_of_isDigit hc, hc]
      have hread : transduce State.step .between (Text.decimalText n).toList =
          some ([], .number (Text.decimal n)) := by
        rw [Text.decimalText, String.toList_ofList, hchars]
        exact transduce_cons hstart (State.transduce_run .number State.step_number [c] rest
          fun d hd => isWordChar_of_isDigit (hdigits d (by simp [hd])))
      refine lex_append_of_stops hread (by simp [State.flush, Text.decimalText]) ?_ hstops
        hsecond
      intro d hd
      simp [State.extend?, hd]

end GioForge.Go
