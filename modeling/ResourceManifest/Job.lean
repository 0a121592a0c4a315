import ResourceManifest.Extension
import ResourceManifest.Path

set_option autoImplicit false

namespace ResourceManifest

/-- A manifest is written over the old content, or beside it and then moved into its place. -/
inductive WriteMode where
  | direct | atomic
  deriving DecidableEq, Repr, Inhabited

namespace WriteMode

def all : List WriteMode := [.direct, .atomic]

def name : WriteMode → String
  | .direct => "direct"
  | .atomic => "atomic"

def ofName? (s : String) : Option WriteMode := all.find? (·.name == s)

end WriteMode

def defaultRoot : Path := .ofString "."
def defaultOutput : Path := .ofString "resources.json"

structure Job where
  root : Path := defaultRoot
  output : Path := defaultOutput
  allowed : List String := Preset.assets.extensions
  mode : WriteMode := .direct
  followLinks : Bool := false
  respectIgnore : Bool := false
  deriving DecidableEq, Repr, Inhabited

/-- A manifest with the root and the output of its job, as text. -/
structure Listing where
  root : String
  output : String
  entries : List String
  deriving DecidableEq, Repr, Inhabited

end ResourceManifest
