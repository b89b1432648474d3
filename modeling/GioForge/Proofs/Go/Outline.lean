import GioForge.Proofs.Go.Scanner

/-!
What can be told from the tokens of a file without parsing it: its literals, the
selectors that begin with a name, and the paths in its import block. White space and
comments play no part in any of them.
-/

namespace GioForge.Go

def Token.bytes? : Token → Option (List UInt8)
  | .literal _ bytes => some bytes
  | _ => none

/-- What the literals stand for, in order. -/
def literals (tokens : List Token) : List (List UInt8) :=
  tokens.filterMap Token.bytes?

def Token.isSignificant : Token → Bool
  | .blank _ => false
  | .comment _ => false
  | _ => true

def significant (tokens : List Token) : List Token :=
  tokens.filter Token.isSignificant

def selectorAt (tokens : List Token) : List (String × String) :=
  match tokens.take 3 with
  | [.word qualifier, .mark '.', .word name] => [(qualifier, name)]
  | _ => []

/-- The selectors in tokens that stand behind a dot or behind something else. A name
behind a dot is itself selected and does not begin a selector. -/
def selectorsBehind : Bool → List Token → List (String × String)
  | _, [] => []
  | dot, token :: rest =>
      (if dot then [] else selectorAt (token :: rest)) ++
        selectorsBehind (decide (token = .mark '.')) rest

/-- The selectors of a file, each with its qualifier and the name it selects. -/
def selectors (tokens : List Token) : List (String × String) :=
  selectorsBehind false (significant tokens)

def importBlock (tokens : List Token) : List (List UInt8) :=
  literals (((significant tokens).dropWhile (· ≠ .word "import")).takeWhile (· ≠ .mark ')'))

/-- The last segment of the path of a package, which is the name it is used by. -/
def lastSegment (path : String) : String :=
  String.ofList (path.toList.reverse.takeWhile (· ≠ '/')).reverse

theorem significant_append (first second : List Token) :
    significant (first ++ second) = significant first ++ significant second :=
  List.filter_append first second

theorem literals_significant (tokens : List Token) :
    literals (significant tokens) = literals tokens := by
  unfold literals significant
  rw [List.filterMap_filter]
  congr 1
  funext token
  cases token <;> rfl

/-- The import block is the literals between the brackets behind the first such keyword. -/
theorem importBlock_of_significant {tokens before after : List Token} {paths : List String}
    (h : significant tokens = before ++ .word "import" :: .mark '(' ::
      (paths.map (fun path => Token.literal path (utf8 path)) ++ .mark ')' :: after))
    (hbefore : Token.word "import" ∉ before) : importBlock tokens = paths.map utf8 := by
  have hskip : ∀ token ∈ before, decide (token ≠ .word "import") = true := by
    intro token htoken
    apply decide_eq_true
    rintro rfl
    exact hbefore htoken
  have hpaths : ∀ token ∈ paths.map (fun path => Token.literal path (utf8 path)),
      decide (token ≠ .mark ')') = true := by
    intro token htoken
    obtain ⟨path, _, rfl⟩ := List.mem_map.mp htoken
    rfl
  have hliterals : literals (paths.map fun path => Token.literal path (utf8 path)) =
      paths.map utf8 := by
    unfold literals
    rw [List.filterMap_map]
    exact congrFun List.filterMap_eq_map paths
  have hblock : (paths.map (fun path => Token.literal path (utf8 path)) ++
      .mark ')' :: after).takeWhile (· ≠ .mark ')') =
        paths.map fun path => Token.literal path (utf8 path) := by
    rw [List.takeWhile_append_of_pos hpaths, List.takeWhile_cons]
    simp
  unfold importBlock
  rw [h, List.dropWhile_append_of_pos hskip]
  change literals (.word "import" :: .mark '(' :: List.takeWhile _ _) = _
  rw [hblock]
  exact hliterals

/-- Neither the first nor the last token is a dot. -/
def isClosed (tokens : List Token) : Bool :=
  decide (tokens.head? ≠ some (.mark '.')) && decide (tokens.getLast? ≠ some (.mark '.'))

theorem isClosed_iff (tokens : List Token) :
    isClosed tokens = true ↔
      tokens.head? ≠ some (.mark '.') ∧ tokens.getLast? ≠ some (.mark '.') := by
  simp [isClosed]

theorem isClosed_append {first second : List Token} (hfirst : isClosed first = true)
    (hsecond : isClosed second = true) : isClosed (first ++ second) = true := by
  rw [isClosed_iff] at hfirst hsecond ⊢
  rw [List.head?_append, List.getLast?_append]
  constructor
  · cases hhead : first.head? with
    | none => exact hsecond.1
    | some token => simpa [hhead] using hfirst.1
  · cases hlast : second.getLast? with
    | none => simpa using hfirst.2
    | some token => simpa [hlast] using hsecond.2

theorem isClosed_flatMap {α : Type} {xs : List α} {tokens : α → List Token}
    (h : ∀ x ∈ xs, isClosed (tokens x) = true) : isClosed (xs.flatMap tokens) = true := by
  induction xs with
  | nil => rfl
  | cons x rest ih =>
      rw [List.flatMap_cons]
      apply isClosed_append
      · exact h x (by simp)
      · apply ih
        intro y hy
        exact h y (by simp [hy])

/-- A selector at a token is decided before the tokens end, if they do not end within it. -/
theorem selectorAt_append {token : Token} {rest second : List Token}
    (hlast : (token :: rest).getLast? ≠ some (.mark '.'))
    (hhead : second.head? ≠ some (.mark '.')) :
    selectorAt (token :: rest ++ second) = selectorAt (token :: rest) := by
  -- A selector has three tokens, so at most two tokens of the first part are in one that
  -- reaches into the second.
  match rest with
  | [] =>
      cases token with
      | word text =>
          cases second with
          | nil => rfl
          | cons next more =>
              cases next with
              | mark c =>
                  have hc : c ≠ '.' := by
                    rintro rfl
                    exact hhead rfl
                  simp [selectorAt, hc]
              | _ => rfl
      | _ => rfl
  | [next] =>
      cases token with
      | word text =>
          cases next with
          | mark c =>
              have hc : c ≠ '.' := by
                rintro rfl
                exact hlast rfl
              simp [selectorAt, hc]
          | _ => rfl
      | _ => rfl
  | next :: third :: more => rfl

/-- No selector reaches from tokens that do not end in a dot into tokens that do not
begin with one. -/
theorem selectorsBehind_append {dot : Bool} {first second : List Token}
    (hlast : first.getLast? ≠ some (.mark '.')) (hdot : first = [] → dot = false)
    (hhead : second.head? ≠ some (.mark '.')) :
    selectorsBehind dot (first ++ second) =
      selectorsBehind dot first ++ selectorsBehind false second := by
  induction first generalizing dot with
  | nil =>
      rw [hdot rfl]
      rfl
  | cons token rest ih =>
      have hrest : selectorsBehind (decide (token = .mark '.')) (rest ++ second) =
          selectorsBehind (decide (token = .mark '.')) rest ++ selectorsBehind false second := by
        apply ih
        · cases rest with
          | nil => simp
          | cons next more => simpa [List.getLast?_cons_cons] using hlast
        · rintro rfl
          simpa using hlast
      have hat := selectorAt_append hlast hhead
      simp only [List.cons_append] at hat
      simp only [List.cons_append, selectorsBehind, hrest, hat, List.append_assoc]

/-- So the selectors of closed lines together are those of each of them. -/
theorem selectors_flatMap {lines : List (List Token)}
    (h : ∀ line ∈ lines, isClosed (significant line) = true) :
    selectorsBehind false (lines.flatMap significant) = lines.flatMap selectors := by
  induction lines with
  | nil => rfl
  | cons line rest ih =>
      have hrest : ∀ line ∈ rest, isClosed (significant line) = true := by
        intro other hother
        exact h other (by simp [hother])
      have hline := (isClosed_iff _).mp (h line (by simp))
      have hflat := (isClosed_iff _).mp (isClosed_flatMap hrest)
      rw [List.flatMap_cons, List.flatMap_cons,
        selectorsBehind_append hline.2 (fun _ => rfl) hflat.1, ih hrest]
      rfl

end GioForge.Go
