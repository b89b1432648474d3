import GioForge.Proofs.Go.Outline

/-!
Brackets of a file. A machine with a stack reads the tokens of a file: an opening
bracket puts the bracket that has to close it on the stack, a closing bracket has to
be the one on top, and everything else passes, literals and comments in particular.
What stands in the brackets of a call can then be told from the tokens alone.
-/

namespace GioForge.Go

/-- The bracket that closes what the character opens, if it is an opening bracket. -/
def closing? : Char → Option Char
  | '(' => some ')'
  | '[' => some ']'
  | '\x7b' => some '\x7d'
  | _ => none

def isClosing (c : Char) : Bool :=
  c == ')' || c == ']' || c == '\x7d'

/-- Takes one token while the given brackets have to be closed, the innermost first. -/
def bracketStep (awaited : List Char) : Token → Option (List Char)
  | .mark c =>
      match closing? c with
      | some d => some (d :: awaited)
      | none =>
          if isClosing c then
            match awaited with
            | d :: rest => if c = d then some rest else none
            | [] => none
          else some awaited
  | _ => some awaited

/-- The brackets that have to be closed after the tokens; none if a bracket closes
something else than the innermost open one. -/
def brackets (awaited : List Char) (tokens : List Token) : Option (List Char) :=
  tokens.foldlM bracketStep awaited

/-- What the first tokens leave open the second ones may close. -/
theorem brackets_append {awaited middle last : List Char} {first second : List Token}
    (hfirst : brackets awaited first = some middle) (hsecond : brackets middle second = some last) :
    brackets awaited (first ++ second) = some last := by
  simp only [brackets] at hfirst hsecond ⊢
  rw [List.foldlM_append, hfirst]
  exact hsecond

theorem brackets_flatMap {α : Type} {xs : List α} {tokens : α → List Token} {awaited : List Char}
    (h : ∀ x ∈ xs, brackets awaited (tokens x) = some awaited) :
    brackets awaited (xs.flatMap tokens) = some awaited := by
  induction xs with
  | nil => rfl
  | cons x rest ih =>
      rw [List.flatMap_cons]
      apply brackets_append (h x (by simp))
      exact ih fun y hy => h y (by simp [hy])

theorem bracketStep_of_not_significant {token : Token} (h : token.isSignificant = false)
    (awaited : List Char) : bracketStep awaited token = some awaited := by
  cases token with
  | blank c => rfl
  | comment text => rfl
  | _ => cases h

/-- White space and comments have no brackets. -/
theorem brackets_significant (awaited : List Char) (tokens : List Token) :
    brackets awaited (significant tokens) = brackets awaited tokens := by
  induction tokens generalizing awaited with
  | nil => rfl
  | cons token rest ih =>
      simp only [brackets, significant] at ih ⊢
      cases hsignificant : token.isSignificant with
      | false =>
          rw [List.filter_cons_of_neg (by simp [hsignificant]), List.foldlM_cons,
            bracketStep_of_not_significant hsignificant]
          exact ih awaited
      | true =>
          rw [List.filter_cons_of_pos hsignificant, List.foldlM_cons, List.foldlM_cons]
          exact congrArg (bracketStep awaited token).bind (funext ih)

/-- What is open around the tokens plays no part as long as the tokens do not close it. -/
theorem bracketStep_frame {awaited next : List Char} {token : Token}
    (h : bracketStep awaited token = some next) (around : List Char) :
    bracketStep (awaited ++ around) token = some (next ++ around) := by
  cases token with
  | mark c =>
      simp only [bracketStep] at h ⊢
      cases hopening : closing? c with
      | some d =>
          simp only [hopening, Option.some.injEq] at h
          simp [← h]
      | none =>
          simp only [hopening] at h
          split at h
          · next hclosing =>
              cases awaited with
              | nil => cases h
              | cons d rest =>
                  simp only [Option.ite_none_right_eq_some, Option.some.injEq] at h
                  obtain ⟨rfl, rfl⟩ := h
                  simp [hclosing]
          · next hclosing =>
              obtain rfl := Option.some.inj h
              simp [hclosing]
  | _ =>
      obtain rfl := Option.some.inj h
      rfl

/-- The tokens up to the bracket that closes the last of the awaited ones. -/
def enclosed : List Char → List Token → List Token
  | _, [] => []
  | awaited, token :: rest =>
      match bracketStep awaited token with
      | some (d :: more) => token :: enclosed (d :: more) rest
      | _ => []

/-- Tokens with brackets of their own are all inside the brackets around them. -/
theorem enclosed_append {awaited last : List Char} {body : List Token}
    (h : brackets awaited body = some last) (c : Char) (rest : List Token) :
    enclosed (awaited ++ [c]) (body ++ rest) = body ++ enclosed (last ++ [c]) rest := by
  induction body generalizing awaited with
  | nil =>
      obtain rfl : awaited = last := Option.some.inj h
      rfl
  | cons token more ih =>
      simp only [brackets, List.foldlM_cons, Option.bind_eq_bind, Option.bind_eq_some_iff] at h
      obtain ⟨next, hstep, hmore⟩ := h
      have hframe := bracketStep_frame hstep [c]
      have hrest := ih hmore
      simp only [List.cons_append, enclosed, hframe]
      -- The bracket around the tokens is still awaited, so the stack is not empty.
      cases next with
      | nil => simpa using hrest
      | cons d others => simpa using hrest

theorem enclosed_closed {body : List Token} (h : brackets [] body = some []) (rest : List Token) :
    enclosed [')'] (body ++ .mark ')' :: rest) = body := by
  have hbody := enclosed_append h ')' (.mark ')' :: rest)
  have hclose : enclosed [')'] (.mark ')' :: rest) = [] := rfl
  simpa [hclose] using hbody

/-- What stands in the brackets behind each place where a function is called by this
name. -/
def argumentsOf (name : String) : List Token → List (List Token)
  | [] => []
  | token :: rest =>
      (if token = .word name ∧ rest.head? = some (.mark '(') then [enclosed [')'] rest.tail]
        else []) ++ argumentsOf name rest

theorem argumentsOf_append {name : String} {first : List Token} (h : .word name ∉ first)
    (second : List Token) : argumentsOf name (first ++ second) = argumentsOf name second := by
  induction first with
  | nil => rfl
  | cons token rest ih =>
      simp only [List.mem_cons, not_or] at h
      have htoken : token ≠ .word name := fun heq => h.1 heq.symm
      rw [List.cons_append, argumentsOf, ih h.2]
      simp [htoken]

/-- The argument of a call by a name is its body, and the search goes on behind it. -/
theorem argumentsOf_call {name : String} {body : List Token} (hname : .word name ∉ body)
    (hbody : brackets [] body = some []) (rest : List Token) :
    argumentsOf name (.word name :: .mark '(' :: (body ++ .mark ')' :: rest)) =
      body :: argumentsOf name rest := by
  have hinside : argumentsOf name (.mark '(' :: (body ++ .mark ')' :: rest)) =
      argumentsOf name rest := by
    have hbrackets : .word name ∉ .mark '(' :: (body ++ [.mark ')']) := by
      simp [hname]
    simpa using argumentsOf_append hbrackets rest
  rw [argumentsOf, hinside, List.tail_cons, enclosed_closed hbody]
  simp

end GioForge.Go
