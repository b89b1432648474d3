import GioForge.Document.Decode
import GioForge.Json.Reader
import GioForge.Path
import GioForge.Toml.Reader

/-!
The formats of documents and what can go wrong with one. The format follows from the ending of a
file's name.
-/

namespace GioForge.Document

inductive Format where
  | json
  | toml
  deriving DecidableEq, Inhabited

/-- The format of a file, by the ending of its name in letters of either case. -/
def Format.ofPath? (path : Path) : Option Format :=
  match path.extension?.map fun ending => ending.map Char.toLower with
  | some "json" => some .json
  | some "toml" => some .toml
  | _ => none

inductive Error where
  /-- The file cannot be read, or is no text. -/
  | unreadable (path : Path)
  /-- The ending of the file's name is that of no format. -/
  | unsupported (path : Path)
  /-- The text is no JSON document of the shape asked for. -/
  | json (fault : Fault) (offset : Option Nat)
  /-- The text is no TOML document of the shape asked for. -/
  | toml
  deriving DecidableEq, Inhabited

namespace Error

def message : Error → String
  | .unreadable path => "failed to read '" ++ path.text ++ "'"
  | .unsupported path => "unsupported document format for '" ++ path.text ++ "'"
  | .json _ _ => "failed to parse JSON document"
  | .toml => "failed to parse TOML document"

def code : Error → String
  | .unreadable _ => "msg2go::io"
  | .unsupported _ => "msg2go::unsupported_format"
  | .json _ _ => "msg2go::json_error"
  | .toml => "msg2go::toml_error"

def help? : Error → Option String
  | .unsupported _ => some "documents must use a .json or .toml extension"
  | _ => none

/-- The error of a fault in a JSON text; a fault of shape has no place. -/
def ofJson (text : String) (fault : Fault) : Error :=
  let offset := match fault with
    | .malformed index => shownOffset? text.toUTF8.toList index
    | .truncated index => shownOffset? text.toUTF8.toList index
    | .mismatched => none
  .json fault offset

end Error

def jsonReading : Reading where
  room := some Json.nesting
  exactRows := true
  looksInside := false

def tomlReading : Reading where
  room := none
  exactRows := false
  looksInside := true

/-- Decodes a JSON text. What stands behind its value is looked at last. -/
def decodeJson {α : Type} (decoder : Decoder α) (text : String) : Except Fault α := do
  let (node, trailing) := Json.read text
  let result ← decoder jsonReading node
  match trailing with
  | some fault => throw fault
  | none => return result

def decodeToml {α : Type} (decoder : Decoder α) (text : String) : Except Fault α :=
  match Toml.read? text with
  | some node => decoder tomlReading node
  | none => .error .mismatched

def parse {α : Type} (decoder : Decoder α) (format : Format) (text : String) : Except Error α :=
  match format with
  | .json => (decodeJson decoder text).mapError (Error.ofJson text)
  | .toml => (decodeToml decoder text).mapError fun _ => .toml

end GioForge.Document
