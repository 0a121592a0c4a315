import ResourceManifest.Failure
import ResourceManifest.Job

/-!
Configurations: YAML texts that list jobs. A job names some of its settings and takes the others
from the defaults; a setting that is unknown or given twice is refused.
-/

set_option autoImplicit false

namespace ResourceManifest

/-- The settings of a job in a configuration. -/
inductive Setting where
  | root | output | extensions | preset | mode | followLinks | respectIgnore
  deriving DecidableEq, Repr

namespace Setting

def all : List Setting :=
  [.root, .output, .extensions, .preset, .mode, .followLinks, .respectIgnore]

def name : Setting → String
  | .root => "root"
  | .output => "output_file"
  | .extensions => "allowed_extensions"
  | .preset => "preset"
  | .mode => "write_mode"
  | .followLinks => "follow_links"
  | .respectIgnore => "respect_ignore"

def ofName? (s : String) : Option Setting := all.find? (·.name == s)

end Setting

/-- The settings that a job gives; an inner option is one that may be given as null. -/
structure JobSettings where
  root? : Option (Option String) := none
  output? : Option (Option String) := none
  extensions? : Option (Option (List String)) := none
  preset? : Option (Option Preset) := none
  mode? : Option WriteMode := none
  followLinks? : Option Bool := none
  respectIgnore? : Option Bool := none
  deriving DecidableEq, Repr, Inhabited

namespace JobSettings

def gives (s : JobSettings) : Setting → Bool
  | .root => s.root?.isSome
  | .output => s.output?.isSome
  | .extensions => s.extensions?.isSome
  | .preset => s.preset?.isSome
  | .mode => s.mode?.isSome
  | .followLinks => s.followLinks?.isSome
  | .respectIgnore => s.respectIgnore?.isSome

def job (s : JobSettings) : Job where
  root := (s.root?.join.map .ofString).getD defaultRoot
  output := (s.output?.join.map .ofString).getD defaultOutput
  allowed := selectExtensions (s.extensions?.join.getD []) s.preset?.join
  mode := s.mode?.getD .direct
  followLinks := s.followLinks?.getD false
  respectIgnore := s.respectIgnore?.getD false

open Yaml Yaml.Decoder

def presets : Variants Preset := ⟨Preset.all, Preset.name⟩

def writeModes : Variants WriteMode := ⟨WriteMode.all, WriteMode.name⟩

/-- Decodes the value of a setting into the settings read before it. -/
def read (s : JobSettings) : Setting → Decoder JobSettings
  | .root => map (fun v => { s with root? := some v }) (option (text "path string"))
  | .output => map (fun v => { s with output? := some v }) (option (text "path string"))
  | .extensions => map (fun v => { s with extensions? := some v }) (option (list (text "a string")))
  | .preset => map (fun v => { s with preset? := some v }) (option (variant presets))
  | .mode => map (fun v => { s with mode? := some v }) (variant writeModes)
  | .followLinks => map (fun v => { s with followLinks? := some v }) bool
  | .respectIgnore => map (fun v => { s with respectIgnore? := some v }) bool

def record : Record JobSettings where
  expected := "struct JobEntry"
  empty := {}
  checkKey key := match Setting.ofName? key with
    | some _ => .ok ()
    | none => .error (.unknownField key (Setting.all.map Setting.name))
  member key s := match Setting.ofName? key with
    | some setting =>
      if s.gives setting then .error (.duplicateField key) else .ok (some (s.read setting))
    | none => .ok none

end JobSettings

namespace Config

open Yaml Yaml.Decoder

def record : Record (Option (List JobSettings)) where
  expected := "struct ConfigFile"
  empty := none
  checkKey _ := .ok ()
  member key jobs? :=
    if key = "jobs" then
      match jobs? with
      | some _ => .error (.duplicateField key)
      | none => .ok (some (map some (list (Decoder.record JobSettings.record))))
    else .ok none

def decode (bs : Bytes) : Except Flaw (List JobSettings) :=
  (Yaml.decode (Decoder.record record) bs).map (·.getD [])

/-- The jobs of a configuration, of which there is at least one; `path` names it in failures. -/
def read (path : Path) (bs : Bytes) : Except Failure (List Job) :=
  match decode bs with
  | .error f => .error (.config path (.flaw f))
  | .ok [] => .error (.emptyConfig path)
  | .ok (s :: ss) => .ok ((s :: ss).map JobSettings.job)

end Config

end ResourceManifest
