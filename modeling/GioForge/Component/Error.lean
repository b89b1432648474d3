import GioForge.Text.Digit

/-!
Why a user interface cannot be compiled. Each of these concerns one element and ends the
compilation.
-/

namespace GioForge

inductive FieldFault where
  /-- It is not there. -/
  | missing
  /-- It is no text. -/
  | notText
  /-- It is no natural number. -/
  | notNatural
  /-- It is zero. -/
  | zero
  /-- It is no level of a heading. -/
  | notLevel
  deriving DecidableEq, Inhabited

/-- The words for a fault, to follow the name of the field. -/
def FieldFault.reason : FieldFault → String
  | .missing => "is required"
  | .notText => "must be a string"
  | .notNatural => "must be a positive integer"
  | .zero => "must be greater than zero"
  | .notLevel => "must be between 1 and 6"

inductive CompileError where
  /-- Nothing can be done with it. -/
  | unprocessable (index : Nat) (reason : String)
  /-- Its kind is not among the known ones. -/
  | unknownKind (index : Nat) (kind : String) (known : List String)
  /-- One of its fields is wrong. The reason follows the name of the field. -/
  | malformed (index : Nat) (kind field reason : String)
  deriving DecidableEq, Inhabited

namespace CompileError

def index : CompileError → Nat
  | .unprocessable i _ => i
  | .unknownKind i _ _ => i
  | .malformed i _ _ _ => i

def untaggedReason : String := "element has no kind tag"

def knownText (known : List String) : String :=
  String.intercalate ", " known

def placeOf (index : Nat) : String :=
  "elements[" ++ Text.decimalText index ++ "]"

def message : CompileError → String
  | .unprocessable i reason => "unprocessable element at " ++ placeOf i ++ ": " ++ reason
  | .unknownKind i kind _ => "unknown element kind '" ++ kind ++ "' at " ++ placeOf i
  | .malformed i kind field reason =>
      "malformed '" ++ kind ++ "' element at " ++ placeOf i ++ ": field '" ++ field ++ "' " ++
        reason

def code : CompileError → String
  | .unprocessable _ _ => "msg2go::unprocessable_graph"
  | .unknownKind _ _ _ => "msg2go::unknown_element_kind"
  | .malformed _ _ _ _ => "msg2go::malformed_element"

def help? : CompileError → Option String
  | .unprocessable _ _ => some "every element needs a non-empty 'kind' tag"
  | .unknownKind _ _ known => some ("registered kinds: " ++ knownText known)
  | .malformed _ _ _ _ => none

end CompileError

end GioForge
