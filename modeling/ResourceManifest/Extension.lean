import ResourceManifest.Sequence
import ResourceManifest.Text.Blank

/-!
File-name extensions and the lists that select by them. An extension is what follows the last
dot of a name, with text on both sides of the dot; lists are normalised once and then compared
exactly.
-/

set_option autoImplicit false

namespace ResourceManifest

def extension? (name : String) : Option String :=
  match splitLast '.' name.toList with
  | some (_ :: _, c :: e) => some (String.ofList (c :: e))
  | _ => none

def isAllowed (name : String) (allowed : List String) : Bool :=
  match extension? name with
  | some e => allowed.contains e
  | none => false

def normalizeExtension (raw : String) : List Char :=
  (trim raw.toList).dropWhile (· == '.')

/-- Normalised extensions in their order, without the empty ones. -/
def normalizeExtensions (raw : List String) : List String :=
  (raw.map normalizeExtension).filterMap fun e =>
    if e.isEmpty then none else some (String.ofList e)

inductive Preset where
  | images | assets
  deriving DecidableEq, Repr, Inhabited

namespace Preset

def all : List Preset := [.images, .assets]

def name : Preset → String
  | .images => "images"
  | .assets => "assets"

def ofName? (s : String) : Option Preset := all.find? (·.name == s)

def extensions : Preset → List String
  | .images => ["jpg", "png", "gif"]
  | .assets => ["jpg", "png", "gif", "mp3", "wav", "ogg"]

theorem ofName?_name (p : Preset) : ofName? p.name = some p := by cases p <;> decide

end Preset

/-- The list a job selects by: its own extensions if any is left, else those of a preset. -/
def selectExtensions (raw : List String) (preset : Option Preset) : List String :=
  match normalizeExtensions raw with
  | [] => (preset.getD .assets).extensions
  | e :: es => e :: es

theorem selectExtensions_of_normal {raw : List String} (hne : raw ≠ [])
    (hnormal : normalizeExtensions raw = raw) (preset : Option Preset) :
    selectExtensions raw preset = raw := by
  obtain ⟨e, es, rfl⟩ := List.exists_cons_of_ne_nil hne
  rw [selectExtensions, hnormal]

end ResourceManifest
