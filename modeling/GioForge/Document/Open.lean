import GioForge.Document.Format
import GioForge.FileTree

/-!
Documents on a disk. The format is settled before the file is looked at, and a document that may be
absent is absent only if there is nothing at its path.
-/

namespace GioForge.Document

structure Loaded (α : Type) where
  path : Path
  content : String
  value : α
  deriving Inhabited

def load {α : Type} (decoder : Decoder α) (tree : FileTree) (path : Path) :
    Except Error (Loaded α) := do
  match Format.ofPath? path with
  | none => throw (.unsupported path)
  | some format =>
      match tree.readText? path with
      | none => throw (.unreadable path)
      | some content => return ⟨path, content, ← parse decoder format content⟩

def loadOptional {α : Type} (decoder : Decoder α) (tree : FileTree) (path : Path) :
    Except Error (Option (Loaded α)) :=
  if tree.exists? path then (load decoder tree path).map some else .ok none

end GioForge.Document
