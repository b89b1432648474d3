import GioForge.Document.Format
import GioForge.FileTree

/-!
Project settings: where the documents of a project lie, where its program goes, and what its module
manifest says. Every setting has a default, so a project needs no settings file.
-/

namespace GioForge

structure GoSettings where
  /-- The path of the module. -/
  module : String := "gio.test"
  /-- The version of the language. -/
  goVersion : String := "1.24.9"
  /-- The version of the user interface library. -/
  gioVersion : String := "v0.9.0"
  deriving DecidableEq, Inhabited

structure PathSettings where
  ui : Path := ⟨"ui/main.json"⟩
  relation : Path := ⟨"relation/main.json"⟩
  output : Path := ⟨"build"⟩
  deriving DecidableEq, Inhabited

structure Project where
  go : GoSettings := {}
  paths : PathSettings := {}
  deriving DecidableEq, Inhabited

open Document Decoder

def Path.decoder : Decoder Path := fun reading node =>
  (Decoder.text reading node).map Path.mk

def GoSettings.slots : List (Slot GoSettings) :=
  [slot "module" text fun v s => { s with module := v },
    slot "go_version" text fun v s => { s with goVersion := v },
    slot "gio_version" text fun v s => { s with gioVersion := v }]

def PathSettings.slots : List (Slot PathSettings) :=
  [slot "ui" Path.decoder fun v s => { s with ui := v },
    slot "relation" Path.decoder fun v s => { s with relation := v },
    slot "output" Path.decoder fun v s => { s with output := v }]

namespace Project

def slots : List (Slot Project) :=
  [slot "go" (Decoder.record {} GoSettings.slots Decoder.refuse) fun v p => { p with go := v },
    slot "paths" (Decoder.record {} PathSettings.slots Decoder.refuse) fun v p =>
      { p with paths := v }]

/-- Settings. Names that mean nothing are refused. -/
def decoder : Decoder Project :=
  Decoder.record {} slots Decoder.refuse

def ofToml (s : String) : Except Document.Error Project :=
  parse decoder .toml s

/-- Whether all settings are the defaults. Paths are compared by what they are made of. -/
def isDefault (project : Project) : Bool :=
  let paths : PathSettings := {}
  project.go = {} && project.paths.ui.same paths.ui &&
    project.paths.relation.same paths.relation && project.paths.output.same paths.output

def relativeTo (project : Project) (base : Path) : Project :=
  let settle (p : Path) : Path := if p.isAbsolute then p else base.join p
  { project with
    paths :=
      { ui := settle project.paths.ui
        relation := settle project.paths.relation
        output := settle project.paths.output } }

/-- The settings in a file, with its relative paths taken from the directory of the file; the
defaults as they are if there is no file. -/
def load (tree : FileTree) (path : Path) : Except Document.Error Project :=
  if tree.exists? path then
    match tree.readText? path with
    | none => .error (.unreadable path)
    | some s => (ofToml s).map fun project => project.relativeTo (path.parent?.getD ⟨""⟩)
  else .ok {}

end Project

end GioForge
