import GioForge.Proofs.Go.Outline

/-!
Names of a file. Where a name is declared and where it is read can be told from the
few tokens around it, as long as declarations are of the plain forms: a name behind a
word that declares, a name before a short declaration, and the parameter of a function.
-/

namespace GioForge.Go

def Token.word? : Token → Option String
  | .word text => some text
  | _ => none

def words (tokens : List Token) : List String :=
  tokens.filterMap Token.word?

theorem mem_words (tokens : List Token) (name : String) :
    name ∈ words tokens ↔ .word name ∈ tokens := by
  unfold words
  rw [List.mem_filterMap]
  constructor
  · rintro ⟨token, htoken, hname⟩
    cases token with
    | word text =>
        obtain rfl : text = name := Option.some.inj hname
        exact htoken
    | _ => cases hname
  · intro htoken
    exact ⟨_, htoken, rfl⟩

theorem words_significant (tokens : List Token) : words (significant tokens) = words tokens := by
  unfold words significant
  rw [List.filterMap_filter]
  congr 1
  funext token
  cases token <;> rfl

/-- The words that a declared name stands behind. -/
def declaring : List String :=
  ["var", "const", "type", "func"]

def declaredAt (tokens : List Token) : List String :=
  match tokens.take 3 with
  | .word keyword :: .word name :: _ => if keyword ∈ declaring then [name] else []
  | [.word keyword, .mark '(', .word name] => if keyword = "func" then [name] else []
  | [.word name, .mark ':', .mark '='] => [name]
  | _ => []

def declarationsIn : List Token → List String
  | [] => []
  | token :: rest => declaredAt (token :: rest) ++ declarationsIn rest

def declarations (tokens : List Token) : List String :=
  declarationsIn (significant tokens)

/-- The tokens behind a name assign to it. -/
def assigns (tokens : List Token) : Bool :=
  match tokens.take 2 with
  | [.mark '=', .mark '='] => false
  | .mark '=' :: _ => true
  | [.mark ':', .mark '='] => true
  | _ => false

/-- The name stands somewhere in the tokens where it is neither selected from something
else nor declared nor assigned to. -/
def Reads (name : String) (tokens : List Token) : Prop :=
  ∃ before after, tokens = before ++ .word name :: after ∧
    before.getLast? ≠ some (.mark '.') ∧ before.getLast? ≠ some (.word "var") ∧
    assigns after = false

def Token.declares : Token → Bool
  | .word text => declaring.contains text
  | _ => false

/-- The first token does not assign, and a declaration that begins in the tokens ends in
them. -/
def isSettled (tokens : List Token) : Bool :=
  tokens.head?.all (fun token => token ≠ .mark ':' && token ≠ .mark '=') &&
    (tokens.reverse.take 2).all fun token => !token.declares

/-- No operator that declares stands at the beginning, and none among the last two tokens. -/
theorem isSettled_iff (tokens : List Token) :
    isSettled tokens = true ↔
      (tokens.head? ≠ some (.mark ':') ∧ tokens.head? ≠ some (.mark '=')) ∧
      ∀ token ∈ tokens.reverse.take 2, token.declares = false := by
  cases tokens <;> simp [isSettled]

theorem head?_flatMap_of_isSettled {lines : List (List Token)}
    (h : ∀ line ∈ lines, isSettled (significant line) = true) :
    (lines.flatMap significant).head? ≠ some (.mark ':') ∧
      (lines.flatMap significant).head? ≠ some (.mark '=') := by
  induction lines with
  | nil => simp
  | cons line rest ih =>
      have hrest := ih fun other hother => h other (by simp [hother])
      have hline := ((isSettled_iff _).mp (h line (by simp))).1
      rw [List.flatMap_cons, List.head?_append]
      cases hhead : (significant line).head? with
      | none => exact hrest
      | some token => simpa [hhead] using hline

/-- A word that does not declare is itself declared before a short declaration only. -/
theorem declaredAt_of_not_mem {text : String} (h : text ∉ declaring) (rest : List Token) :
    declaredAt (.word text :: rest) =
      if rest.take 2 = [.mark ':', .mark '='] then [text] else [] := by
  have hfunc : text ≠ "func" := by
    rintro rfl
    exact h (by decide)
  unfold declaredAt
  rw [List.take_succ_cons]
  split <;> simp_all

/-- What is declared at a token is decided before the tokens end, if they are settled. -/
theorem declaredAt_append {token : Token} {rest second : List Token}
    (hlast : ∀ t ∈ (token :: rest).reverse.take 2, t.declares = false)
    (hcolon : second.head? ≠ some (.mark ':')) (hequals : second.head? ≠ some (.mark '=')) :
    declaredAt (token :: rest ++ second) = declaredAt (token :: rest) := by
  cases token with
  | word text =>
      have hdeclaring : rest.length < 2 → text ∉ declaring := by
        intro hlength
        have htext := hlast (.word text) (by
          match rest, hlength with
          | [], _ => simp
          | [next], _ => simp)
        simpa [Token.declares] using htext
      -- Only the last two tokens could begin a declaration that reaches into the second part.
      match rest with
      | [] =>
          have hshort : second.take 2 ≠ [.mark ':', .mark '='] := by
            intro htake
            have hhead := congrArg List.head? htake
            rw [List.head?_take] at hhead
            exact hcolon hhead
          rw [List.cons_append, declaredAt_of_not_mem (hdeclaring (by decide)),
            declaredAt_of_not_mem (hdeclaring (by decide))]
          simp [hshort]
      | [next] =>
          have hshort : (next :: second).take 2 ≠ [.mark ':', .mark '='] := by
            cases second with
            | nil => simp
            | cons third more =>
                intro htake
                simp only [List.take_succ_cons, List.take_zero, List.cons.injEq] at htake
                simp [htake.2.1] at hequals
          rw [List.cons_append, declaredAt_of_not_mem (hdeclaring (by simp)),
            declaredAt_of_not_mem (hdeclaring (by simp))]
          simpa using hshort
      | next :: third :: more => rfl
  | _ => rfl

/-- No declaration reaches from settled tokens into tokens that do not begin by
assigning. -/
theorem declarationsIn_append {first second : List Token}
    (hlast : ∀ t ∈ first.reverse.take 2, t.declares = false)
    (hcolon : second.head? ≠ some (.mark ':')) (hequals : second.head? ≠ some (.mark '=')) :
    declarationsIn (first ++ second) = declarationsIn first ++ declarationsIn second := by
  induction first with
  | nil => rfl
  | cons token rest ih =>
      have hrest : ∀ t ∈ rest.reverse.take 2, t.declares = false := by
        intro t ht
        apply hlast
        rw [List.reverse_cons, List.take_append]
        exact List.mem_append_left _ ht
      have hat := declaredAt_append hlast hcolon hequals
      rw [List.cons_append] at hat
      rw [List.cons_append, declarationsIn, declarationsIn, hat, ih hrest, List.append_assoc]

/-- So what settled lines declare together is what each of them declares. -/
theorem declarations_flatMap {lines : List (List Token)}
    (h : ∀ line ∈ lines, isSettled (significant line) = true) :
    declarationsIn (lines.flatMap significant) = lines.flatMap declarations := by
  induction lines with
  | nil => rfl
  | cons line rest ih =>
      have hrest : ∀ line ∈ rest, isSettled (significant line) = true := by
        intro other hother
        exact h other (by simp [hother])
      have hline := (isSettled_iff _).mp (h line (by simp))
      obtain ⟨hcolon, hequals⟩ := head?_flatMap_of_isSettled hrest
      rw [List.flatMap_cons, List.flatMap_cons, declarationsIn_append hline.2 hcolon hequals,
        ih hrest]
      rfl

end GioForge.Go
