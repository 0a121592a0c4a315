set_option autoImplicit false

namespace ResourceManifest

inductive Flag where
  | root | output | ext | preset | config | atomic | followLinks | respectIgnore | json
  | help | version
  deriving DecidableEq, Repr, Inhabited

namespace Flag

def all : List Flag :=
  [.root, .output, .ext, .preset, .config, .atomic, .followLinks, .respectIgnore, .json, .help,
    .version]

def long : Flag → String
  | .root => "root"
  | .output => "output"
  | .ext => "ext"
  | .preset => "preset"
  | .config => "config"
  | .atomic => "atomic"
  | .followLinks => "follow-links"
  | .respectIgnore => "respect-ignore"
  | .json => "json"
  | .help => "help"
  | .version => "version"

def short? : Flag → Option Char
  | .root => some 'r'
  | .output => some 'o'
  | .ext => some 'e'
  | .preset => some 'p'
  | .config => some 'c'
  | .help => some 'h'
  | .version => some 'V'
  | _ => none

def valueName? : Flag → Option String
  | .root => some "ROOT"
  | .output => some "OUTPUT"
  | .ext => some "EXTENSIONS"
  | .preset => some "PRESET"
  | .config => some "CONFIG"
  | _ => none

def takesValue (f : Flag) : Bool := f.valueName?.isSome

def isRepeatable (f : Flag) : Bool := f == .ext

def ofLong? (name : String) : Option Flag := all.find? (·.long == name)

def ofShort? (c : Char) : Option Flag := all.find? (·.short? == some c)

def spelled (f : Flag) : String := "--" ++ f.long

def shown (f : Flag) : String :=
  match f.valueName? with
  | some v => f.spelled ++ " <" ++ v ++ ">"
  | none => f.spelled

theorem ofLong?_long (f : Flag) : ofLong? f.long = some f := by cases f <;> decide

end Flag

end ResourceManifest
