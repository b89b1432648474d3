import GioForge.Proofs.Go.Scanner

/-!
What the tokens of a text look like. The scanner keeps an invariant about the token it
is in, and every token it puts out has the matching property: a literal holds what the
reader of literals accepts, with valid escapes and no line feed, and of all tokens only
white space holds line feeds.
-/

namespace GioForge.Go

/-- No line feed is taken between the quotes of a literal, not even after a backslash. -/
theorem Reading.step_line_feed (reading : Reading) : reading.step '\n' = none := by
  cases reading <;> rfl

theorem line_feed_not_mem_of_read {reading last : Reading} {cs : List Char} {out : List UInt8}
    (h : transduce Reading.step reading cs = some (out, last)) : '\n' ∉ cs := by
  induction cs generalizing reading out with
  | nil => simp
  | cons c rest ih =>
      simp only [transduce, Option.bind_eq_bind, Option.bind_eq_some_iff] at h
      obtain ⟨⟨first, next⟩, hstep, ⟨more, state⟩, hrest, heq⟩ := h
      obtain ⟨rfl, rfl⟩ := Prod.mk.inj (Option.some.inj heq)
      rw [List.mem_cons, not_or]
      constructor
      · rintro rfl
        rw [Reading.step_line_feed] at hstep
        cases hstep
      · exact ih hrest

/-- The form of a token: a literal can be read to the bytes it denotes, and a line
feed can only be white space. -/
def Token.Sound : Token → Prop
  | .blank _ => True
  | .comment text => '\n' ∉ text.toList
  | .word text => '\n' ∉ text.toList
  | .number text => '\n' ∉ text.toList
  | .literal contents bytes =>
      transduce Reading.step .plain contents.toList = some (bytes, .plain)
  | .mark c => c ≠ '\n'

namespace State

/-- The same for what has been read of a token. -/
def Sound : State → Prop
  | .between => True
  | .word read => '\n' ∉ read
  | .number read => '\n' ∉ read
  | .slash => True
  | .comment read => '\n' ∉ read
  | .literal read bytes reading => transduce Reading.step .plain read = some (bytes, reading)

theorem sound_start {c : Char} {tokens : List Token} {next : State}
    (h : start c = some (tokens, next)) : (∀ token ∈ tokens, token.Sound) ∧ next.Sound := by
  unfold start at h
  split_ifs at h with hspace hletter hdigit hquote hslash hmark
  · obtain ⟨rfl, rfl⟩ := Prod.mk.inj (Option.some.inj h)
    simp [Token.Sound, Sound]
  all_goals
    have hfeed : c ≠ '\n' := by
      rintro rfl
      exact hspace rfl
    obtain ⟨rfl, rfl⟩ := Prod.mk.inj (Option.some.inj h)
    simp [Token.Sound, Sound, hfeed, Ne.symm hfeed, transduce]

theorem sound_extend {s next : State} {c : Char} (hs : s.Sound) (h : s.extend? c = some next) :
    next.Sound := by
  have hword : isWordChar c = true → c ≠ '\n' := by
    rintro hc rfl
    cases hc
  cases s with
  | between => cases h
  | word read =>
      obtain ⟨hc, rfl⟩ : isWordChar c = true ∧ State.word (read ++ [c]) = next := by
        simpa [extend?] using h
      exact List.not_mem_append hs (by simpa using Ne.symm (hword hc))
  | number read =>
      obtain ⟨hc, rfl⟩ : isWordChar c = true ∧ State.number (read ++ [c]) = next := by
        simpa [extend?] using h
      exact List.not_mem_append hs (by simpa using Ne.symm (hword hc))
  | slash =>
      obtain ⟨_, rfl⟩ : c = '/' ∧ State.comment [] = next := by
        simpa [extend?] using h
      exact List.not_mem_nil
  | comment read =>
      obtain ⟨hc, rfl⟩ : c ≠ '\n' ∧ State.comment (read ++ [c]) = next := by
        simpa [extend?] using h
      exact List.not_mem_append hs (by simpa using Ne.symm hc)
  | literal read bytes reading => cases h

theorem sound_flush {s : State} {done : List Token} (hs : s.Sound) (h : s.flush = some done) :
    ∀ token ∈ done, token.Sound := by
  cases s with
  | between =>
      obtain rfl := Option.some.inj h
      simp
  | slash => cases h
  | literal read bytes reading => cases h
  | _ =>
      obtain rfl := Option.some.inj h
      simpa [Token.Sound, Sound] using hs

/-- A step keeps what was found and what is being read sound. -/
theorem sound_advance {s next : State} {c : Char} {tokens : List Token} (hs : s.Sound)
    (h : s.advance c = some (tokens, next)) : (∀ token ∈ tokens, token.Sound) ∧ next.Sound := by
  unfold advance at h
  cases hextend : s.extend? c with
  | some extended =>
      obtain ⟨rfl, rfl⟩ : [] = tokens ∧ extended = next := by simpa [hextend] using h
      exact ⟨by simp, sound_extend hs hextend⟩
  | none =>
      simp only [hextend, Option.bind_eq_bind, Option.bind_eq_some_iff] at h
      obtain ⟨done, hflush, ⟨begun, state⟩, hstart, heq⟩ := h
      obtain ⟨rfl, rfl⟩ : done ++ begun = tokens ∧ state = next := by simpa using heq
      obtain ⟨hbegun, hstate⟩ := sound_start hstart
      refine ⟨?_, hstate⟩
      intro token htoken
      rcases List.mem_append.mp htoken with hdone | hin
      · exact sound_flush hs hflush token hdone
      · exact hbegun token hin

/-- One step keeps the invariant and puts out tokens that have the property. -/
theorem sound_step {s next : State} {c : Char} {tokens : List Token} (hs : s.Sound)
    (h : s.step c = some (tokens, next)) : (∀ token ∈ tokens, token.Sound) ∧ next.Sound := by
  cases s with
  | literal read bytes reading =>
      simp only [step] at h
      split at h
      · next hclose =>
          obtain ⟨rfl, rfl⟩ := Prod.mk.inj (Option.some.inj h)
          obtain ⟨rfl, _⟩ := hclose
          simpa [Token.Sound, Sound] using hs
      · simp only [Option.bind_eq_bind, Option.bind_eq_some_iff] at h
        obtain ⟨⟨out, reading'⟩, hread, heq⟩ := h
        obtain ⟨rfl, rfl⟩ := Prod.mk.inj (Option.some.inj heq)
        exact ⟨by simp, transduce_append hs (transduce_singleton hread)⟩
  | between => exact sound_advance hs h
  | word read => exact sound_advance hs h
  | number read => exact sound_advance hs h
  | slash => exact sound_advance hs h
  | comment read => exact sound_advance hs h

/-- So a whole run does, by induction on what is left to read. -/
theorem sound_transduce {s last : State} {cs : List Char} {tokens : List Token} (hs : s.Sound)
    (h : transduce step s cs = some (tokens, last)) :
    (∀ token ∈ tokens, token.Sound) ∧ last.Sound := by
  induction cs generalizing s tokens with
  | nil =>
      obtain ⟨rfl, rfl⟩ : [] = tokens ∧ s = last := by simpa [transduce] using h
      exact ⟨by simp, hs⟩
  | cons c rest ih =>
      simp only [transduce, Option.bind_eq_bind, Option.bind_eq_some_iff] at h
      obtain ⟨⟨out, next⟩, hstep, ⟨more, state⟩, hrest, heq⟩ := h
      obtain ⟨rfl, rfl⟩ : out ++ more = tokens ∧ state = last := by simpa using heq
      obtain ⟨hout, hnext⟩ := sound_step hs hstep
      obtain ⟨hmore, hlast⟩ := ih hnext hrest
      refine ⟨?_, hlast⟩
      intro token htoken
      rcases List.mem_append.mp htoken with hin | hin
      · exact hout token hin
      · exact hmore token hin

end State

/-- Every token of a source is one that can be written so. -/
theorem sound_of_lex {source : String} {tokens : List Token} (h : lex source = some tokens) :
    ∀ token ∈ tokens, token.Sound := by
  simp only [lex, Option.bind_eq_bind, Option.bind_eq_some_iff] at h
  obtain ⟨⟨read, last⟩, hread, done, hflush, heq⟩ := h
  obtain rfl : read ++ done = tokens := by simpa using heq
  have hstart : State.between.Sound := trivial
  obtain ⟨htokens, hlast⟩ := State.sound_transduce hstart hread
  intro token htoken
  rcases List.mem_append.mp htoken with hin | hin
  · exact htokens token hin
  · exact State.sound_flush hlast hflush token hin

/-- A text without a token for a line feed has no line feed, not even in a literal. -/
theorem line_feed_not_mem_of_lex {source : String} {tokens : List Token}
    (h : lex source = some tokens) (hfeed : .blank '\n' ∉ tokens) : '\n' ∉ source.toList := by
  rw [← spelling_lex h]
  intro hmem
  obtain ⟨token, htoken, hspelled⟩ := List.mem_flatMap.mp hmem
  have hsound := sound_of_lex h token htoken
  cases token with
  | blank c =>
      obtain rfl : '\n' = c := by simpa [Token.spelling] using hspelled
      exact hfeed htoken
  | comment text => exact hsound (by simpa [Token.spelling] using hspelled)
  | word text => exact hsound hspelled
  | number text => exact hsound hspelled
  | literal contents bytes =>
      exact line_feed_not_mem_of_read hsound (by simpa [Token.spelling] using hspelled)
  | mark c => exact hsound (by simpa [Token.spelling, eq_comm] using hspelled)

end GioForge.Go
