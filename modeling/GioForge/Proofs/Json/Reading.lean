import GioForge.Json.Reader
import GioForge.Proofs.Json.Tokens

/-!
Reading back printed values. The reader takes the tokens of a value to a node that shows
the value, whatever containers are open around it, and puts the node where a value was
expected. So the text of a value is read as a tree that shows it, without any break and
with nothing behind it.

In the other direction, everything in a tree comes from the tokens of its text. What is
needed of that later is about numbers: they are whole if those of the text are.
-/

namespace GioForge

namespace Document

mutual

/-- The node is a value without any fault, wherever it stands in its text. -/
def Shows : Value → Node → Prop
  | .null, .null _ => True
  | .bool b, .bool _ c => c = b
  | .number n, .number _ m => m = .ok n
  | .text s, .text _ t => t = .ok s
  | .array items, .array _ nodes ending => ShowItems items nodes ∧ ending = none
  | .object entries, .object _ nodes ending => ShowEntries entries nodes ∧ ending = none
  | _, _ => False

def ShowItems : List Value → List Node → Prop
  | [], nodes => nodes = []
  | item :: rest, nodes => ∃ node more, nodes = node :: more ∧ Shows item node ∧ ShowItems rest more

def ShowEntries : List (String × Value) → List (Except Fault String × Node) → Prop
  | [], nodes => nodes = []
  | (key, value) :: rest, nodes =>
      ∃ node more, nodes = (.ok key, node) :: more ∧ Shows value node ∧ ShowEntries rest more

end

mutual

/-- All numbers in the tree that have a value are whole, and none is infinite. -/
def Node.IsWhole : Node → Prop
  | .number _ (.ok n) => n.IsWhole
  | .unbounded _ => False
  | .array _ items _ => Node.AllWhole items
  | .object _ entries _ => Node.EntriesWhole entries
  | _ => True

def Node.AllWhole : List Node → Prop
  | [] => True
  | item :: rest => item.IsWhole ∧ Node.AllWhole rest

def Node.EntriesWhole : List (Except Fault String × Node) → Prop
  | [] => True
  | (_, node) :: rest => node.IsWhole ∧ Node.EntriesWhole rest

end

theorem Node.allWhole_iff {items : List Node} :
    Node.AllWhole items ↔ ∀ item ∈ items, item.IsWhole := by
  induction items with
  | nil => simp [Node.AllWhole]
  | cons item rest ih => simp [Node.AllWhole, ih]

theorem Node.entriesWhole_iff {entries : List (Except Fault String × Node)} :
    Node.EntriesWhole entries ↔ ∀ entry ∈ entries, entry.2.IsWhole := by
  induction entries with
  | nil => simp [Node.EntriesWhole]
  | cons entry rest ih => simp [Node.EntriesWhole, ih]

end Document

namespace Json

open Document

/-- What reading comes to when a token has led to a step and `rest` follows it. -/
def Step.resume (size : Nat) (rest : List Token) : Step → Node × List Token
  | .more next => next.run size rest
  | .done node => (node, rest)
  | .stopped node => (node, [])

theorem State.run_cons (size : Nat) (state : State) (token : Token) (rest : List Token) :
    state.run size (token :: rest) = (state.step token).resume size rest := by
  rw [State.run]
  cases state.step token <;> rfl

/-- Where a value is expected, also as the first item of an array. -/
def Goal.TakesValue : Goal → Prop
  | .value | .firstItem => True
  | _ => False

def Goal.TakesKey : Goal → Prop
  | .key | .firstKey => True
  | _ => False

@[simp] theorem Step.resume_more (size : Nat) (rest : List Token) (next : State) :
    (Step.more next).resume size rest = next.run size rest :=
  rfl

theorem State.run_value {goal : Goal} (h : goal.TakesValue) (size mark : Nat) {l : Lexeme}
    (hclose : l ≠ .closeBracket) (stack : List Frame) (rest : List Token) :
    State.run size ⟨goal, stack⟩ (⟨mark, l⟩ :: rest) =
      (State.value ⟨.value, stack⟩ ⟨mark, l⟩).resume size rest := by
  rw [State.run_cons]
  cases goal with
  | value => rfl
  | firstItem =>
      cases l with
      | closeBracket => exact absurd rfl hclose
      | _ => rfl
  | firstKey => exact h.elim
  | key => exact h.elim
  | colon => exact h.elim
  | separator => exact h.elim

theorem State.run_key {goal : Goal} (h : goal.TakesKey) (size mark start : Nat)
    (entries : List (Except Fault String × Node)) (stack : List Frame) (key : String)
    (rest : List Token) :
    State.run size ⟨goal, .object start entries :: stack⟩ (⟨mark, .text (.ok key)⟩ :: rest) =
      State.run size ⟨.colon, .entry start entries (.ok key) :: stack⟩ rest := by
  rw [State.run_cons]
  cases goal with
  | key => rfl
  | firstKey => rfl
  | value => exact h.elim
  | firstItem => exact h.elim
  | colon => exact h.elim
  | separator => exact h.elim

/-- The tokens are read as the value wherever one is expected. -/
def Reads (found : List Token) (v : Value) : Prop :=
  ∃ node, Shows v node ∧ ∀ size goal stack rest, Goal.TakesValue goal →
    State.run size ⟨goal, stack⟩ (found ++ rest) = (deliver node stack).resume size rest

/-- The tokens are read as the items of an array, to the end of the last one. -/
def ReadsItems (found : List Token) (items : List Value) : Prop :=
  ∃ nodes, ShowItems items nodes ∧ ∀ size goal mark done stack rest, Goal.TakesValue goal →
    State.run size ⟨goal, .array mark done :: stack⟩ (found ++ rest) =
      State.run size ⟨.separator, .array mark (nodes.reverse ++ done) :: stack⟩ rest

/-- The tokens are read as the entries of an object, to the end of the last one. -/
def ReadsEntries (found : List Token) (entries : List (String × Value)) : Prop :=
  ∃ nodes, ShowEntries entries nodes ∧ ∀ size goal mark done stack rest, Goal.TakesKey goal →
    State.run size ⟨goal, .object mark done :: stack⟩ (found ++ rest) =
      State.run size ⟨.separator, .object mark (nodes.reverse ++ done) :: stack⟩ rest

theorem Reads.scalar {mark : Nat} {l : Lexeme} {v : Value} (node : Node) (hshow : Shows v node)
    (hclose : l ≠ .closeBracket)
    (hvalue : ∀ stack, State.value ⟨.value, stack⟩ ⟨mark, l⟩ = deliver node stack) :
    Reads [⟨mark, l⟩] v := by
  refine ⟨node, hshow, ?_⟩
  intro size goal stack rest hgoal
  rw [List.singleton_append, State.run_value hgoal size mark hclose, hvalue]

/-- Brackets around items. Without any item the closing one comes first. -/
theorem Reads.array {start stop : Nat} {found : List Token} {items : List Value}
    (h : items = [] ∧ found = [] ∨ ReadsItems found items) :
    Reads (⟨start, .openBracket⟩ :: (found ++ [⟨stop, .closeBracket⟩])) (.array items) := by
  have hopen : Lexeme.openBracket ≠ .closeBracket := nofun
  obtain ⟨rfl, rfl⟩ | ⟨nodes, hshow, hrun⟩ := h
  · refine ⟨.array start [] none, ⟨rfl, rfl⟩, ?_⟩
    intro size goal stack rest hgoal
    rw [List.cons_append, State.run_value hgoal size start hopen]
    exact State.run_cons ..
  · refine ⟨.array start nodes none, ⟨hshow, rfl⟩, ?_⟩
    intro size goal stack rest hgoal
    rw [List.cons_append, List.append_assoc, State.run_value hgoal size start hopen]
    refine (hrun size .firstItem start [] stack _ trivial).trans ?_
    rw [List.append_nil, List.singleton_append, State.run_cons]
    change (deliver (.array start nodes.reverse.reverse none) stack).resume size rest = _
    rw [List.reverse_reverse]

/-- Braces around entries. Without any entry the closing one comes first. -/
theorem Reads.object {start stop : Nat} {found : List Token} {entries : List (String × Value)}
    (h : entries = [] ∧ found = [] ∨ ReadsEntries found entries) :
    Reads (⟨start, .openBrace⟩ :: (found ++ [⟨stop, .closeBrace⟩])) (.object entries) := by
  have hopen : Lexeme.openBrace ≠ .closeBracket := nofun
  obtain ⟨rfl, rfl⟩ | ⟨nodes, hshow, hrun⟩ := h
  · refine ⟨.object start [] none, ⟨rfl, rfl⟩, ?_⟩
    intro size goal stack rest hgoal
    rw [List.cons_append, State.run_value hgoal size start hopen]
    exact State.run_cons ..
  · refine ⟨.object start nodes none, ⟨hshow, rfl⟩, ?_⟩
    intro size goal stack rest hgoal
    rw [List.cons_append, List.append_assoc, State.run_value hgoal size start hopen]
    refine (hrun size .firstKey start [] stack _ trivial).trans ?_
    rw [List.append_nil, List.singleton_append, State.run_cons]
    change (deliver (.object start nodes.reverse.reverse none) stack).resume size rest = _
    rw [List.reverse_reverse]

theorem Reads.lastItem {found : List Token} {item : Value} (h : Reads found item) :
    ReadsItems found [item] := by
  obtain ⟨node, hshow, hrun⟩ := h
  refine ⟨[node], ⟨node, [], rfl, hshow, rfl⟩, ?_⟩
  intro size goal mark done stack rest hgoal
  exact hrun size goal (.array mark done :: stack) rest hgoal

theorem Reads.item {first found : List Token} {item : Value} {items : List Value} {comma : Nat}
    (h : Reads first item) (hitems : ReadsItems found items) :
    ReadsItems (first ++ ⟨comma, .comma⟩ :: found) (item :: items) := by
  obtain ⟨node, hshow, hrun⟩ := h
  obtain ⟨nodes, hshows, hruns⟩ := hitems
  refine ⟨node :: nodes, ⟨node, nodes, rfl, hshow, hshows⟩, ?_⟩
  intro size goal mark done stack rest hgoal
  rw [List.append_assoc, List.cons_append, hrun size goal _ _ hgoal, deliver, Step.resume_more,
    State.run_cons]
  refine (hruns size .value mark (node :: done) stack rest trivial).trans ?_
  rw [List.reverse_cons, List.append_assoc, List.singleton_append]

/-- A key and its colon. -/
theorem Reads.run_entry {found : List Token} {value : Value} (h : Reads found value) :
    ∃ node, Shows value node ∧ ∀ size goal mark start colon done stack key rest,
      Goal.TakesKey goal →
      State.run size ⟨goal, .object mark done :: stack⟩
          (⟨start, .text (.ok key)⟩ :: ⟨colon, .colon⟩ :: (found ++ rest)) =
        State.run size ⟨.separator, .object mark ((.ok key, node) :: done) :: stack⟩ rest := by
  obtain ⟨node, hshow, hrun⟩ := h
  refine ⟨node, hshow, ?_⟩
  intro size goal mark start colon done stack key rest hgoal
  rw [State.run_key hgoal, State.run_cons]
  exact hrun size .value (.entry mark done (.ok key) :: stack) rest trivial

theorem Reads.lastEntry {found : List Token} {value : Value} {key : String} {start colon : Nat}
    (h : Reads found value) :
    ReadsEntries (⟨start, .text (.ok key)⟩ :: ⟨colon, .colon⟩ :: found) [(key, value)] := by
  obtain ⟨node, hshow, hrun⟩ := h.run_entry
  refine ⟨[(.ok key, node)], ⟨node, [], rfl, hshow, rfl⟩, ?_⟩
  intro size goal mark done stack rest hgoal
  exact hrun size goal mark start colon done stack key rest hgoal

theorem Reads.entry {first found : List Token} {value : Value} {entries : List (String × Value)}
    {key : String} {start colon comma : Nat} (h : Reads first value)
    (hentries : ReadsEntries found entries) :
    ReadsEntries
      (⟨start, .text (.ok key)⟩ :: ⟨colon, .colon⟩ :: (first ++ ⟨comma, .comma⟩ :: found))
      ((key, value) :: entries) := by
  obtain ⟨node, hshow, hrun⟩ := h.run_entry
  obtain ⟨nodes, hshows, hruns⟩ := hentries
  refine ⟨(.ok key, node) :: nodes, ⟨node, nodes, rfl, hshow, hshows⟩, ?_⟩
  intro size goal mark done stack rest hgoal
  rw [List.cons_append, List.cons_append, List.append_assoc, List.cons_append,
    hrun _ _ _ _ _ _ _ _ _ hgoal, State.run_cons]
  refine (hruns size .key mark ((.ok key, node) :: done) stack rest trivial).trans ?_
  rw [List.reverse_cons, List.append_assoc, List.singleton_append]

theorem exists_token {found : List Token} {l : Lexeme} {more : List Lexeme}
    (h : found.map Token.lexeme = l :: more) :
    ∃ mark rest, found = ⟨mark, l⟩ :: rest ∧ rest.map Token.lexeme = more := by
  obtain ⟨⟨mark, _⟩, rest, rfl, rfl, hrest⟩ := List.map_eq_cons_iff.mp h
  exact ⟨mark, rest, rfl, hrest⟩

theorem exists_one_token {found : List Token} {l : Lexeme} (h : found.map Token.lexeme = [l]) :
    ∃ mark, found = [⟨mark, l⟩] := by
  obtain ⟨mark, rest, rfl, hrest⟩ := exists_token h
  rw [List.map_eq_nil_iff.mp hrest]
  exact ⟨mark, rfl⟩

mutual

/-- The lexemes of a value are read as something that shows it, by recursion on the value. -/
theorem reads_lexemes : ∀ (v : Value) (found : List Token),
    found.map Token.lexeme = lexemes v → Reads found v
  | .null, found, h => by
      obtain ⟨mark, rfl⟩ := exists_one_token h
      exact Reads.scalar (.null mark) trivial nofun fun _ => rfl
  | .bool b, found, h => by
      obtain ⟨mark, rfl⟩ := exists_one_token h
      exact Reads.scalar (.bool mark b) rfl nofun fun _ => rfl
  | .number n, found, h => by
      obtain ⟨mark, rfl⟩ := exists_one_token h
      exact Reads.scalar (.number mark (.ok n)) rfl nofun fun _ => rfl
  | .text s, found, h => by
      obtain ⟨mark, rfl⟩ := exists_one_token h
      exact Reads.scalar (.text mark (.ok s)) rfl nofun fun _ => rfl
  | .array items, found, h => by
      obtain ⟨start, rest, rfl, hrest⟩ := exists_token h
      obtain ⟨inner, last, rfl, hinner, hlast⟩ := List.map_eq_append_iff.mp hrest
      obtain ⟨stop, rfl⟩ := exists_one_token hlast
      exact Reads.array (reads_itemLexemes items inner hinner)
  | .object entries, found, h => by
      obtain ⟨start, rest, rfl, hrest⟩ := exists_token h
      obtain ⟨inner, last, rfl, hinner, hlast⟩ := List.map_eq_append_iff.mp hrest
      obtain ⟨stop, rfl⟩ := exists_one_token hlast
      exact Reads.object (reads_entryLexemes entries inner hinner)

theorem reads_itemLexemes : ∀ (items : List Value) (found : List Token),
    found.map Token.lexeme = itemLexemes items → items = [] ∧ found = [] ∨ ReadsItems found items
  | [], found, h => .inl ⟨rfl, List.map_eq_nil_iff.mp h⟩
  | [item], found, h => .inr (reads_lexemes item found h).lastItem
  | item :: next :: rest, found, h => by
      obtain ⟨first, others, rfl, hfirst, hothers⟩ := List.map_eq_append_iff.mp h
      obtain ⟨comma, more, rfl, hmore⟩ := exists_token hothers
      obtain ⟨hnil, -⟩ | hitems := reads_itemLexemes (next :: rest) more hmore
      · cases hnil
      · exact .inr ((reads_lexemes item first hfirst).item hitems)

theorem reads_entryLexemes : ∀ (entries : List (String × Value)) (found : List Token),
    found.map Token.lexeme = entryLexemes entries →
    entries = [] ∧ found = [] ∨ ReadsEntries found entries
  | [], found, h => .inl ⟨rfl, List.map_eq_nil_iff.mp h⟩
  | [(key, value)], found, h => by
      obtain ⟨start, behind, rfl, hbehind⟩ := exists_token h
      obtain ⟨colon, found, rfl, hfound⟩ := exists_token hbehind
      exact .inr (reads_lexemes value found hfound).lastEntry
  | (key, value) :: next :: rest, found, h => by
      obtain ⟨start, behind, rfl, hbehind⟩ := exists_token h
      obtain ⟨colon, found, rfl, hfound⟩ := exists_token hbehind
      obtain ⟨first, others, rfl, hfirst, hothers⟩ := List.map_eq_append_iff.mp hfound
      obtain ⟨comma, more, rfl, hmore⟩ := exists_token hothers
      obtain ⟨hnil, -⟩ | hentries := reads_entryLexemes (next :: rest) more hmore
      · cases hnil
      · exact .inr ((reads_lexemes value first hfirst).entry hentries)

end

theorem tokens_compact (v : Value) :
    tokens (compact v) = tokensFrom (compact v).utf8ByteSize 0 0 (compactChars v) := by
  unfold tokens
  rw [compact, String.toList_ofList]

/-- A text with the tokens of a value is read as the value. -/
theorem read_of_lexes {text : String} {v : Value} (h : Lexes text.toList (lexemes v)) :
    ∃ node, Shows v node ∧ read text = (node, none) := by
  have hends : EndsNumeral [] := by
    intro c hc
    cases hc
  obtain ⟨found, after, hfound, htokens⟩ := h text.utf8ByteSize 0 [] hends
  obtain ⟨node, hshow, hrun⟩ := reads_lexemes v found hfound
  refine ⟨node, hshow, ?_⟩
  rw [List.append_nil] at htokens
  unfold read tokens
  rw [htokens]
  dsimp only
  rw [hrun _ .value [] _ trivial]
  rfl

/-- Whatever is written in one line is read as something that shows it, without a fault. -/
theorem read_compact {v : Value} (h : v.IsWhole) :
    ∃ node, Shows v node ∧ read (compact v) = (node, none) := by
  apply read_of_lexes
  rw [compact, String.toList_ofList]
  exact lexes_compact v h

/-- The numeral of the token, if it is one and has a number, stands for a whole number. -/
def Lexeme.HasWholeNumber : Lexeme → Prop
  | .number (.ok n) => n.IsWhole
  | _ => True

instance : DecidablePred Lexeme.HasWholeNumber
  | .number (.ok n) => inferInstanceAs (Decidable n.IsWhole)
  | .number (.error _) | .openBrace | .closeBrace | .openBracket | .closeBracket | .colon | .comma
  | .null | .bool _ | .text _ | .cutText _ | .cut _ => .isTrue trivial

/-- No numeral of the text has a fraction, an exponent, more than 64 bits or a sign in front of
zero. -/
def HasWholeNumbers (text : String) : Prop :=
  ∀ token ∈ tokens text, token.lexeme.HasWholeNumber

instance (text : String) : Decidable (HasWholeNumbers text) :=
  inferInstanceAs (Decidable (∀ token ∈ tokens text, token.lexeme.HasWholeNumber))

def Frame.IsWhole : Frame → Prop
  | .array _ items => ∀ node ∈ items, node.IsWhole
  | .object _ entries => ∀ entry ∈ entries, entry.2.IsWhole
  | .entry _ entries _ => ∀ entry ∈ entries, entry.2.IsWhole

theorem Frame.IsWhole.add {frame : Frame} (h : frame.IsWhole) {node : Node} (hnode : node.IsWhole) :
    (frame.add node).IsWhole := by
  cases frame with
  | array mark items => exact List.forall_mem_cons.mpr ⟨hnode, h⟩
  | object mark entries => exact h
  | entry mark entries key => exact List.forall_mem_cons.mpr ⟨hnode, h⟩

theorem Frame.IsWhole.close {frame : Frame} (h : frame.IsWhole) (ending : Option Break) :
    (frame.close ending).IsWhole := by
  cases frame with
  | array mark items => exact Node.allWhole_iff.mpr fun node hnode => h node (by simpa using hnode)
  | object mark entries =>
      exact Node.entriesWhole_iff.mpr fun entry hentry => h entry (by simpa using hentry)
  | entry mark entries key =>
      exact Node.entriesWhole_iff.mpr fun entry hentry => h entry (by simpa using hentry)

/-- What was read before a fault is kept, and is whole if its parts are. -/
theorem abandon_isWhole (place : Break) {node : Node} (hnode : node.IsWhole) {stack : List Frame}
    (hstack : ∀ frame ∈ stack, frame.IsWhole) : (abandon place node stack).IsWhole := by
  induction stack generalizing node with
  | nil => exact hnode
  | cons frame rest ih =>
      obtain ⟨hframe, hrest⟩ := List.forall_mem_cons.mp hstack
      exact ih ((hframe.add hnode).close (some place)) hrest

/-- Whatever the step leaves, in the containers that are open or as the tree, has whole numbers. -/
def Step.IsWhole : Step → Prop
  | .more state => ∀ frame ∈ state.stack, frame.IsWhole
  | .done node => node.IsWhole
  | .stopped node => node.IsWhole

section Run

variable {goal : Goal} {stack : List Frame} (hstack : ∀ frame ∈ stack, frame.IsWhole)
include hstack

theorem State.fail_isWhole (mark : Nat) (place : Break) :
    (State.fail ⟨goal, stack⟩ mark place).IsWhole := by
  have hbroken : (Node.broken mark place).IsWhole := trivial
  cases goal with
  | value => exact abandon_isWhole place hbroken hstack
  | colon => exact abandon_isWhole place hbroken hstack
  | _ =>
      cases stack with
      | nil => exact hbroken
      | cons frame rest =>
          obtain ⟨hframe, hrest⟩ := List.forall_mem_cons.mp hstack
          exact abandon_isWhole place (hframe.close (some place)) hrest

theorem State.unexpected_isWhole (token : Token) :
    (State.unexpected ⟨goal, stack⟩ token).IsWhole :=
  State.fail_isWhole hstack _ _

theorem deliver_isWhole {node : Node} (hnode : node.IsWhole) : (deliver node stack).IsWhole := by
  cases stack with
  | nil => exact hnode
  | cons frame rest =>
      obtain ⟨hframe, hrest⟩ := List.forall_mem_cons.mp hstack
      exact List.forall_mem_cons.mpr ⟨hframe.add hnode, hrest⟩

theorem State.value_isWhole {token : Token} (htoken : token.lexeme.HasWholeNumber) :
    (State.value ⟨goal, stack⟩ token).IsWhole := by
  obtain ⟨mark, l⟩ := token
  cases l with
  | openBracket => exact List.forall_mem_cons.mpr ⟨nofun, hstack⟩
  | openBrace => exact List.forall_mem_cons.mpr ⟨nofun, hstack⟩
  | null => exact deliver_isWhole hstack trivial
  | bool b => exact deliver_isWhole hstack trivial
  | number n =>
      refine deliver_isWhole hstack ?_
      cases n with
      | ok n => exact htoken
      | error fault => trivial
  | text s => exact deliver_isWhole hstack trivial
  | cut place => exact State.fail_isWhole hstack mark place
  | cutText place => exact State.fail_isWhole hstack mark place
  | _ => exact State.unexpected_isWhole hstack _

theorem State.key_isWhole (token : Token) : (State.key ⟨goal, stack⟩ token).IsWhole := by
  unfold State.key
  split
  · next heq =>
      obtain rfl := heq
      obtain ⟨hframe, hrest⟩ := List.forall_mem_cons.mp hstack
      exact List.forall_mem_cons.mpr ⟨hframe, hrest⟩
  · exact State.fail_isWhole hstack _ _
  · exact State.unexpected_isWhole hstack _

/-- A step makes no number that is not whole out of ones that are. -/
theorem State.step_isWhole {token : Token} (htoken : token.lexeme.HasWholeNumber) :
    (State.step ⟨goal, stack⟩ token).IsWhole := by
  have hclose : ∀ (frame : Frame) (rest : List Frame),
      stack = frame :: rest → (deliver (frame.close none) rest).IsWhole := by
    rintro frame rest rfl
    obtain ⟨hframe, hrest⟩ := List.forall_mem_cons.mp hstack
    exact deliver_isWhole hrest (hframe.close none)
  unfold State.step
  split
  · exact State.value_isWhole hstack htoken
  · next heq => exact hclose _ _ heq
  · exact State.value_isWhole hstack htoken
  · next heq => exact hclose _ _ heq
  · exact State.key_isWhole hstack token
  · exact State.key_isWhole hstack token
  · exact hstack
  · exact State.unexpected_isWhole hstack token
  · exact hstack
  · exact hstack
  · next heq => exact hclose _ _ heq
  · next heq => exact hclose _ _ heq
  · exact State.unexpected_isWhole hstack token

/-- So a run does not, by induction on what is left to read. -/
theorem State.run_isWhole {found : List Token}
    (hfound : ∀ token ∈ found, token.lexeme.HasWholeNumber) (size : Nat) :
    (State.run size ⟨goal, stack⟩ found).1.IsWhole := by
  induction found generalizing goal stack with
  | nil => exact State.fail_isWhole hstack _ _
  | cons token rest ih =>
      obtain ⟨htoken, hrest⟩ := List.forall_mem_cons.mp hfound
      have hstep : (State.step ⟨goal, stack⟩ token).IsWhole := State.step_isWhole hstack htoken
      rw [State.run_cons]
      cases hnext : State.step ⟨goal, stack⟩ token with
      | more next =>
          rw [hnext] at hstep
          exact ih hstep hrest
      | done node =>
          rw [hnext] at hstep
          exact hstep
      | stopped node =>
          rw [hnext] at hstep
          exact hstep

end Run

theorem read_isWhole {text : String} (h : HasWholeNumbers text) : (read text).1.IsWhole :=
  State.run_isWhole (List.forall_mem_nil _) h _

end Json

end GioForge
