import GioForge.Proofs.Compilation.Literals
import GioForge.Proofs.Compilation.WellFormed
import GioForge.Proofs.Go.Grammar

/-!
The characters of compiled programs. Outside literals there are only printable
characters of ASCII and the tabs and line feeds of the layout, and inside literals all
controls are escaped, so the only controls of a file are tabs and line feeds. Characters
beyond ASCII are not escaped: one of them is in the file exactly if it is in a text that
the program shows. This holds of the byte order mark too, which Go takes nowhere but at
the start of a file.
-/

namespace GioForge

open Code Go

namespace Go

def isVisible (c : Char) : Bool :=
  0x20 ≤ c.toNat && c.toNat < 0x7f

/-- The token is a text as `quote` writes it, or has only printable characters of ASCII. -/
def Token.Clean : Token → Prop
  | .literal contents bytes => ∃ text, contents = escape text ∧ bytes = utf8 text
  | token => token.spelling.all isVisible = true

namespace Token

/-- A literal that was made from a text is clean whatever the text holds. -/
@[simp]
theorem clean_literal (text : String) : (literal (escape text) (utf8 text)).Clean :=
  ⟨text, rfl, rfl⟩

@[simp]
theorem clean_blank (c : Char) : (blank c).Clean ↔ isVisible c = true := by
  simp [Clean, spelling]

@[simp]
theorem clean_mark (c : Char) : (mark c).Clean ↔ isVisible c = true := by
  simp [Clean, spelling]

@[simp]
theorem clean_word (text : String) : (word text).Clean ↔ text.toList.all isVisible = true :=
  Iff.rfl

@[simp]
theorem clean_number (text : String) : (number text).Clean ↔ text.toList.all isVisible = true :=
  Iff.rfl

def isClean : Token → Bool
  | .literal contents bytes => escape contents == contents && utf8 contents == bytes
  | token => token.spelling.all isVisible

/-- A character of a clean token can be seen or comes from the text of a literal. -/
theorem Clean.spelling {token : Token} (h : token.Clean) {c : Char} (hc : c ∈ token.spelling) :
    isVisible c = true ∨
      ∃ text, token = .literal (escape text) (utf8 text) ∧ c ∈ (escape text).toList := by
  cases token with
  | literal contents bytes =>
      obtain ⟨text, rfl, rfl⟩ := h
      simp only [Token.spelling, List.cons_append, List.mem_cons, List.mem_append,
        List.not_mem_nil, or_false] at hc
      rcases hc with rfl | hc | rfl
      · exact .inl rfl
      · exact .inr ⟨text, rfl, hc⟩
      · exact .inl rfl
  | _ => exact .inl (List.all_eq_true.mp h c hc)

theorem clean_of_isClean {token : Token} (h : token.isClean = true) : token.Clean := by
  cases token with
  | literal contents bytes =>
      obtain ⟨hcontents, hbytes⟩ : escape contents = contents ∧ utf8 contents = bytes := by
        simpa [isClean] using h
      exact ⟨contents, hcontents.symm, hbytes.symm⟩
  | _ => exact h

end Token

theorem isVisible_of_isWordChar {c : Char} (h : isWordChar c = true) : isVisible c = true := by
  have hbetween : ∀ low high : Char, 0x20 ≤ low.toNat → high.toNat < 0x7f → low ≤ c → c ≤ high →
      isVisible c = true := by
    intro low high hlow hhigh hge hle
    have hge : low.toNat ≤ c.toNat := hge
    have hle : c.toNat ≤ high.toNat := hle
    simp only [isVisible, Bool.and_eq_true, decide_eq_true_eq]
    omega
  simp only [isWordChar, isLetter, Text.isDigit, Bool.or_eq_true, Bool.and_eq_true,
    decide_eq_true_eq, beq_iff_eq] at h
  rcases h with ((hlower | hupper) | rfl) | hdigit
  · exact hbetween 'a' 'z' (by decide) (by decide) hlower.1 hlower.2
  · exact hbetween 'A' 'Z' (by decide) (by decide) hupper.1 hupper.2
  · rfl
  · exact hbetween '0' '9' (by decide) (by decide) hdigit.1 hdigit.2

theorem isVisible_of_isName {name : String} (h : IsName name) :
    name.toList.all isVisible = true := by
  obtain ⟨c, rest, hchars, hletter, hrest⟩ := h
  rw [hchars, List.all_cons, isVisible_of_isWordChar (by simp [isWordChar, hletter]),
    Bool.true_and, List.all_eq_true]
  intro d hd
  exact isVisible_of_isWordChar (hrest d hd)

@[simp]
theorem isVisible_decimalText (n : Nat) : (Text.decimalText n).toList.all isVisible = true := by
  rw [Text.decimalText, String.toList_ofList, List.all_eq_true]
  intro d hd
  exact isVisible_of_isWordChar (isWordChar_of_isDigit (isDigit_of_mem_decimal hd))

theorem mem_literals {tokens : List Token} {bytes : List UInt8} :
    bytes ∈ literals tokens ↔ ∃ contents, .literal contents bytes ∈ tokens := by
  rw [literals, List.mem_filterMap]
  constructor
  · rintro ⟨token, htoken, hbytes⟩
    cases token with
    | literal contents denoted =>
        obtain rfl : denoted = bytes := Option.some.inj hbytes
        exact ⟨contents, htoken⟩
    | _ => cases hbytes
  · rintro ⟨contents, hliteral⟩
    exact ⟨_, hliteral, rfl⟩

/-- The escapes are written in ASCII. -/
theorem eq_or_lt_of_mem_escapeChar {c d : Char} (h : c ∈ escapeChar d) :
    c = d ∨ c.toNat < 0x80 := by
  have hshort : ∀ x : Char, x.toNat < 0x80 → c ∈ ['\\', x] → c.toNat < 0x80 := by
    intro x hx hmem
    simp only [List.mem_cons, List.not_mem_nil, or_false] at hmem
    rcases hmem with rfl | rfl
    · decide
    · exact hx
  have hdigits : ∀ n < 16, (Text.hexDigit n).toNat < 0x80 := by
    decide
  unfold escapeChar at h
  split_ifs at h
  · exact .inr (hshort '\\' (by decide) h)
  · exact .inr (hshort '"' (by decide) h)
  · exact .inr (hshort 'n' (by decide) h)
  · exact .inr (hshort 'r' (by decide) h)
  · exact .inr (hshort 't' (by decide) h)
  · right
    simp only [Text.hexPair, List.mem_cons, List.not_mem_nil, or_false] at h
    rcases h with rfl | rfl | rfl | rfl
    · decide
    · decide
    · exact hdigits _ (Nat.mod_lt _ (by decide))
    · exact hdigits _ (Nat.mod_lt _ (by decide))
  · exact .inl (List.mem_singleton.mp h)

/-- Beyond the first 128 characters nothing is escaped. -/
theorem escapeChar_of_le {c : Char} (hc : 0x80 ≤ c.toNat) : escapeChar c = [c] := by
  have hne : ∀ x : Char, x.toNat < 0x80 → c ≠ x := by
    rintro x hx rfl
    omega
  have hcontrol : ¬ isControl c = true := by
    intro hcontrol
    have := isControl_le hcontrol
    omega
  simp [escapeChar, hcontrol, hne '\\' (by decide), hne '"' (by decide), hne '\n' (by decide),
    hne '\r' (by decide), hne '\t' (by decide)]

theorem mem_escape {c : Char} (hc : 0x80 ≤ c.toNat) (s : String) :
    c ∈ (escape s).toList ↔ c ∈ s.toList := by
  rw [escape, String.toList_ofList, List.mem_flatMap]
  constructor
  · rintro ⟨d, hd, hmem⟩
    rcases eq_or_lt_of_mem_escapeChar hmem with rfl | hlt
    · exact hd
    · omega
  · intro hmem
    exact ⟨c, hmem, by simp [escapeChar_of_le hc]⟩

end Go

namespace Page

/-- Every token that a page writes is clean. -/
theorem Written.clean {page : Page} {tokens : List Token} (h : page.Written tokens) :
    ∀ token ∈ tokens, token.Clean := by
  cases h with
  | fixed h =>
      have hall : ∀ tokens ∈ Program.fixedTokens, ∀ token ∈ tokens, token.isClean = true := by
        decide +kernel
      intro token htoken
      exact Token.clean_of_isClean (hall tokens h token htoken)
  | path path h =>
      have hall : ∀ path ∈ packages, (Token.literal path (utf8 path)).isClean = true := by
        decide +kernel
      intro token htoken
      rw [List.mem_singleton.mp htoken]
      exact Token.clean_of_isClean (hall path (mem_packages ((page.imports.mem_paths path).mp h)))
  | @option option h =>
      cases option with
      | _ => simp +decide [WindowOption.tokens, WindowOption.lengthTokens]
  | @declaration v h =>
      have hname := isVisible_of_isName (state_wellFormed h).1
      rcases (page.mem_state v).mp h with ⟨_, _, _, _, rfl⟩ | ⟨_, _, _, rfl⟩ | ⟨_, rfl⟩
      · rw [StateVariable.tokens_clickable]
        simp +decide [hname]
      · rw [StateVariable.tokens_editor]
        simp +decide [hname]
      · rw [StateVariable.tokens_string]
        simp +decide
  | reaction h htokens =>
      obtain ⟨index, _, _, _, rfl | ⟨_, rfl⟩ | rfl⟩ := Widget.mem_reactionTokens htokens
      · have hname := isVisible_of_isName (Widget.isName_buttonName index)
        simp +decide [Widget.clickedTokens, hname]
      · simp +decide [Response.messageTokens]
      · simp +decide
  | @widget w h =>
      have hbutton := fun index => isVisible_of_isName (Widget.isName_buttonName index)
      have heditor := fun index => isVisible_of_isName (Widget.isName_editorName index)
      cases w with
      | _ => simp +decide [Widget.tokens, Widget.callTokens, Widget.endTokens, hbutton, heditor]
  | message h htokens =>
      have hall : ∀ tokens ∈ scanned (Fragment.linesOf 6 Compilation.messageSlot),
          ∀ token ∈ tokens, token.isClean = true := by
        decide +kernel
      intro token htoken
      exact Token.clean_of_isClean (hall _ htokens token htoken)

/-- The tokens of a page are all in its source, and there is nothing else in it but tabs
and line feeds. -/
theorem mem_source {page : Page} {c : Char} (hfeed : c ≠ '\n') (htab : c ≠ '\t') :
    c ∈ page.program.source.toList ↔
      ∃ tokens ∈ page.lineTokens, ∃ token ∈ tokens, c ∈ token.spelling := by
  have hlines : c ∈ page.program.source.toList ↔
      ∃ line ∈ page.program.lines, c ∈ line.text.toList := by
    rw [Program.toList_source, List.mem_flatMap]
    apply exists_congr
    intro line
    apply and_congr_right
    intro _
    unfold Line.chars
    split
    · next hempty => simp [hfeed, String.isEmpty_iff.mp hempty]
    · simp [hfeed, htab]
  have hspelled : ∀ line tokens, lex line = some tokens →
      (c ∈ line.toList ↔ ∃ token ∈ tokens, c ∈ token.spelling) := by
    intro line tokens hlex
    rw [← spelling_lex hlex, List.mem_flatMap]
  rw [hlines]
  constructor
  · rintro ⟨line, hline, hc⟩
    have hmem : lex line.text ∈ page.program.lines.map fun line => lex line.text :=
      List.mem_map_of_mem hline
    rw [page.scans_lines] at hmem
    obtain ⟨tokens, htokens, hlex⟩ := List.mem_map.mp hmem
    exact ⟨tokens, htokens, (hspelled line.text tokens hlex.symm).mp hc⟩
  · rintro ⟨tokens, htokens, hc⟩
    have hmem : some tokens ∈ page.lineTokens.map some := List.mem_map_of_mem htokens
    rw [← page.scans_lines] at hmem
    obtain ⟨line, hline, hlex⟩ := List.mem_map.mp hmem
    exact ⟨line, hline, (hspelled line.text tokens hlex).mpr hc⟩

/-- The literals of a page are its texts, as `quote` writes them. -/
theorem mem_literal {page : Page} {contents : String} {bytes : List UInt8} :
    (∃ tokens ∈ page.lineTokens, .literal contents bytes ∈ tokens) ↔
      ∃ text ∈ page.texts, contents = escape text ∧ bytes = utf8 text := by
  constructor
  · rintro ⟨tokens, htokens, hliteral⟩
    obtain ⟨text, rfl, rfl⟩ := (written_of_mem htokens).clean _ hliteral
    have hbytes : utf8 text ∈ page.lineTokens.flatMap literals :=
      List.mem_flatMap.mpr ⟨tokens, htokens, mem_literals.mpr ⟨_, hliteral⟩⟩
    rw [page.literals_lineTokens] at hbytes
    obtain ⟨other, hother, heq⟩ := List.mem_map.mp hbytes
    exact ⟨text, utf8_injective heq ▸ hother, rfl, rfl⟩
  · rintro ⟨text, htext, rfl, rfl⟩
    have hbytes : utf8 text ∈ page.lineTokens.flatMap literals := by
      rw [page.literals_lineTokens]
      exact List.mem_map_of_mem htext
    obtain ⟨tokens, htokens, hmem⟩ := List.mem_flatMap.mp hbytes
    obtain ⟨contents, hliteral⟩ := mem_literals.mp hmem
    obtain ⟨other, rfl, heq⟩ := (written_of_mem htokens).clean _ hliteral
    exact ⟨tokens, htokens, utf8_injective heq ▸ hliteral⟩

/-- The only controls in the source are the ones that end and indent its lines. -/
theorem control_of_mem_source {page : Page} {c : Char} (hc : isControl c = true)
    (h : c ∈ page.program.source.toList) : c = '\n' ∨ c = '\t' := by
  by_contra hlayout
  rw [not_or] at hlayout
  obtain ⟨tokens, htokens, token, htoken, hspelled⟩ := (mem_source hlayout.1 hlayout.2).mp h
  rcases ((written_of_mem htokens).clean token htoken).spelling hspelled with
    hvisible | ⟨text, _, hescaped⟩
  · simp only [isControl, isVisible, Bool.or_eq_true, Bool.and_eq_true, decide_eq_true_eq,
      beq_iff_eq] at hc hvisible
    omega
  · rw [not_isControl_of_mem_escape hescaped] at hc
    cases hc

/-- Such a character is in the source exactly if one of the texts of the page has it. -/
theorem mem_source_iff_mem_texts {page : Page} {c : Char} (hc : 0x80 ≤ c.toNat) :
    c ∈ page.program.source.toList ↔ ∃ text ∈ page.texts, c ∈ text.toList := by
  have hne : ∀ x : Char, x.toNat < 0x80 → c ≠ x := by
    rintro x hx rfl
    omega
  rw [mem_source (hne '\n' (by decide)) (hne '\t' (by decide))]
  constructor
  · rintro ⟨tokens, htokens, token, htoken, hspelled⟩
    rcases ((written_of_mem htokens).clean token htoken).spelling hspelled with
      hvisible | ⟨text, rfl, hescaped⟩
    · simp only [isVisible, Bool.and_eq_true, decide_eq_true_eq] at hvisible
      omega
    · obtain ⟨other, hother, _, heq⟩ := mem_literal.mp ⟨tokens, htokens, htoken⟩
      exact ⟨text, utf8_injective heq ▸ hother, (mem_escape hc text).mp hescaped⟩
  · rintro ⟨text, htext, hmem⟩
    obtain ⟨tokens, htokens, htoken⟩ := mem_literal.mpr ⟨text, htext, rfl, rfl⟩
    exact ⟨tokens, htokens, _, htoken, by simp [Token.spelling, (mem_escape hc text).mpr hmem]⟩

/-- The other texts of a page, paths and the empty text, are in ASCII. -/
theorem mem_source_iff {page : Page} {c : Char} (hc : 0x80 ≤ c.toNat) :
    c ∈ page.program.source.toList ↔
      ∃ text ∈ page.window.options.filterMap WindowOption.text? ++
          page.widgets.flatMap (fun w => (w.message? page.messageOf).toList ++ [w.text]),
        c ∈ text.toList := by
  have hpaths : ∀ path ∈ page.imports.paths, c ∉ path.toList := by
    have hall : ∀ path ∈ packages, path.toList.all isVisible = true := by
      decide +kernel
    intro path hpath hmem
    have hvisible := List.all_eq_true.mp
      (hall path (mem_packages ((page.imports.mem_paths path).mp hpath))) c hmem
    simp only [isVisible, Bool.and_eq_true, decide_eq_true_eq] at hvisible
    omega
  rw [mem_source_iff_mem_texts hc, texts]
  constructor
  · rintro ⟨text, htext, hmem⟩
    simp only [List.append_assoc, List.mem_append] at htext
    rcases htext with hpath | htitle | hwidget | hempty
    · exact absurd hmem (hpaths text hpath)
    · exact ⟨text, List.mem_append_left _ htitle, hmem⟩
    · exact ⟨text, List.mem_append_right _ hwidget, hmem⟩
    · split at hempty
      · rw [List.mem_singleton.mp hempty] at hmem
        cases hmem
      · cases hempty
  · rintro ⟨text, htext, hmem⟩
    refine ⟨text, ?_, hmem⟩
    rw [List.append_assoc page.imports.paths]
    exact List.mem_append_left _ (List.mem_append_right _ htext)

end Page

/-- Of all controls only tabs and line feeds are in a compiled program, and so no NUL. A
character beyond ASCII is in it exactly if it is in the title or in the text or message of
an element; this is how a byte order mark gets there. -/
theorem compiled_characters_are_those_of_the_texts (ui : Ui.Graph) (relation : Relation.Graph)
    {source : String} (h : compile ui (resolveActions relation) = .ok source) (c : Char) :
    (isControl c = true → c ∈ source.toList → c = '\n' ∨ c = '\t') ∧
    (0x80 ≤ c.toNat → (c ∈ source.toList ↔
      ∃ text ∈ ui.shownTitle :: ui.elements.flatMap (Ui.Element.texts relation),
        c ∈ text.toList)) := by
  obtain ⟨_, widgets, _, hwidgets, _, rfl⟩ := Compilation.page_of_compile h
  have helements := Widget.texts_of_describes hwidgets relation
  rw [List.zipIdx_map_fst] at helements
  refine ⟨Page.control_of_mem_source, ?_⟩
  intro hc
  rw [Page.mem_source_iff hc, helements, ← List.singleton_append, ← Window.texts_options ui]
  rfl

/-- A title with a NUL and a message with a letter beyond ASCII: the one is escaped, the other
stands for itself. -/
theorem compiled_characters_are_those_of_the_texts_mixed :
    ∃ source,
      compile
        { window := some { title := some "a\x00b" }
          elements := [(Ui.Element.ofKind "button").withValue "Go" |>.withAction "go"] }
        (resolveActions ⟨[.of "go" (.text "é")]⟩) = .ok source ∧
      '\x00' ∉ source.toList ∧ 'é' ∈ source.toList ∧ '\ufeff' ∉ source.toList := by
  have htexts := compiled_characters_are_those_of_the_texts
    { window := some { title := some "a\x00b" }
      elements := [(Ui.Element.ofKind "button").withValue "Go" |>.withAction "go"] }
    ⟨[.of "go" (.text "é")]⟩ rfl
  refine ⟨_, rfl, ?_, ?_, ?_⟩
  · intro hnul
    rcases (htexts '\x00').1 rfl hnul with h | h
    · exact absurd h (by decide)
    · exact absurd h (by decide)
  · exact ((htexts 'é').2 (by decide)).mpr ⟨"é", by decide, by decide⟩
  · rw [(htexts '\ufeff').2 (by decide)]
    decide

/-- A byte order mark in a title is written into the program as it is. -/
theorem byte_order_mark_is_not_escaped :
    ∃ source,
      compile { window := some { title := some "\ufeffHi" } } (resolveActions ⟨[]⟩) =
        .ok source ∧
      '\ufeff' ∈ source.toList := by
  obtain ⟨source, hcompile⟩ : ∃ source,
      compile { window := some { title := some "\ufeffHi" } } (resolveActions ⟨[]⟩) =
        .ok source := ⟨_, rfl⟩
  obtain ⟨_, widgets, _, _, _, rfl⟩ := Compilation.page_of_compile hcompile
  refine ⟨_, hcompile, ?_⟩
  rw [Page.mem_source_iff (by decide)]
  exact ⟨"\ufeffHi", List.mem_append_left _ (List.mem_of_elem_eq_true rfl), by decide⟩

end GioForge
