import GioForge.Json.Token

/-!
From the tokens of a JSON text to its tree. The reader keeps the containers that are open on a
stack, so texts may nest as deeply as they like. A text that cannot be followed to its end gives the
tree of what came before, with the break where it happened.
-/

namespace GioForge.Json

open Document

/-- A container that is open, with its content so far, last first. -/
inductive Frame where
  | array (mark : Nat) (items : List Node)
  | object (mark : Nat) (entries : List (Except Fault String × Node))
  /-- An object in which the value of a key is being read. -/
  | entry (mark : Nat) (entries : List (Except Fault String × Node)) (key : Except Fault String)
  deriving Inhabited

inductive Goal where
  /-- A value. -/
  | value
  /-- A value or the end of the array. -/
  | firstItem
  /-- A key or the end of the object. -/
  | firstKey
  /-- A key. -/
  | key
  /-- The colon behind a key. -/
  | colon
  /-- A comma or the end of the container. -/
  | separator
  deriving DecidableEq, Inhabited

/-- Where the reader stands: what it expects, and the open containers, innermost first. -/
structure State where
  goal : Goal
  stack : List Frame
  deriving Inhabited

namespace Frame

def add (node : Node) : Frame → Frame
  | .array mark items => .array mark (node :: items)
  | .entry mark entries key => .object mark ((key, node) :: entries)
  | .object mark entries => .object mark entries

def close (ending : Option Break) : Frame → Node
  | .array mark items => .array mark items.reverse ending
  | .object mark entries => .object mark entries.reverse ending
  | .entry mark entries _ => .object mark entries.reverse ending

end Frame

/-- The tree of a text that breaks off in the value `node`: each open container gets what it lacks
and ends in the same break. -/
def abandon (place : Break) (node : Node) (stack : List Frame) : Node :=
  stack.foldl (fun inner frame => (frame.add inner).close (some place)) node

/-- The tree of a text that breaks off at a token with the given mark. -/
def State.fail (state : State) (mark : Nat) (place : Break) : Node :=
  match state.goal, state.stack with
  | .value, stack => abandon place (.broken mark place) stack
  | .colon, stack => abandon place (.broken mark place) stack
  | _, [] => .broken mark place
  | _, frame :: stack => abandon place (frame.close (some place)) stack

inductive Step where
  /-- Reading goes on. -/
  | more (state : State)
  /-- The outermost value is complete. -/
  | done (node : Node)
  /-- The text cannot be followed any further. -/
  | stopped (node : Node)

/-- A value is complete: it goes into the innermost container, or it was the outermost. -/
def deliver (node : Node) : List Frame → Step
  | [] => .done node
  | frame :: stack => .more ⟨.separator, frame.add node :: stack⟩

def State.unexpected (state : State) (token : Token) : Step :=
  .stopped (state.fail token.mark (.plain (.malformed token.mark)))

def State.value (state : State) (token : Token) : Step :=
  let wanted : State := ⟨.value, state.stack⟩
  match token.lexeme with
  | .openBracket => .more ⟨.firstItem, .array token.mark [] :: state.stack⟩
  | .openBrace => .more ⟨.firstKey, .object token.mark [] :: state.stack⟩
  | .null => deliver (.null token.mark) state.stack
  | .bool b => deliver (.bool token.mark b) state.stack
  | .number n => deliver (.number token.mark n) state.stack
  | .text s => deliver (.text token.mark s) state.stack
  | .cut place => .stopped (wanted.fail token.mark place)
  | .cutText place => .stopped (wanted.fail token.mark place)
  | _ => wanted.unexpected token

def State.key (state : State) (token : Token) : Step :=
  match token.lexeme, state.stack with
  | .text s, .object mark entries :: stack => .more ⟨.colon, .entry mark entries s :: stack⟩
  | .cutText place, _ => .stopped (state.fail token.mark place)
  | _, _ => state.unexpected token

def State.step (state : State) (token : Token) : Step :=
  match state.goal, token.lexeme, state.stack with
  | .value, _, _ => state.value token
  | .firstItem, .closeBracket, frame :: stack => deliver (frame.close none) stack
  | .firstItem, _, _ => state.value token
  | .firstKey, .closeBrace, frame :: stack => deliver (frame.close none) stack
  | .firstKey, _, _ => state.key token
  | .key, _, _ => state.key token
  | .colon, .colon, _ => .more ⟨.value, state.stack⟩
  | .colon, _, _ => state.unexpected token
  | .separator, .comma, .array _ _ :: _ => .more ⟨.value, state.stack⟩
  | .separator, .comma, _ => .more ⟨.key, state.stack⟩
  | .separator, .closeBracket, .array mark items :: stack =>
      deliver ((Frame.array mark items).close none) stack
  | .separator, .closeBrace, .object mark entries :: stack =>
      deliver ((Frame.object mark entries).close none) stack
  | .separator, _, _ => state.unexpected token

/-- Reads one value from the tokens of a text of `size` bytes; gives the tokens behind it. -/
def State.run (size : Nat) (state : State) : List Token → Node × List Token
  | [] => (state.fail size (.plain (.truncated size)), [])
  | token :: rest =>
      match state.step token with
      | .more next => next.run size rest
      | .done node => (node, rest)
      | .stopped node => (node, [])

/-- The tree of a text, and the fault of what stands behind its value, if anything does. -/
def read (text : String) : Node × Option Fault :=
  let (node, rest) := (State.mk .value []).run text.utf8ByteSize (tokens text)
  (node, rest.head?.map fun token => .malformed token.mark)

/-- How many containers may be open inside each other where values are kept. -/
def nesting : Nat := 127

end GioForge.Json
