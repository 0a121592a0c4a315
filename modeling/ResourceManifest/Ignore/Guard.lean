import ResourceManifest.Ignore.Rules
import ResourceManifest.Walk

/-!
A guard that heeds ignore files and skips hidden entries. Each directory entered brings its own
files; those of the directories around the root count as well. The nearest directory decides, and
of the kinds of files the first that says anything.
-/

set_option autoImplicit false

namespace ResourceManifest

/-- Kinds of ignore files, the one that goes before the others first. -/
inductive IgnoreKind where
  | ignore | gitignore | exclude
  deriving DecidableEq, Repr

namespace IgnoreKind

def all : List IgnoreKind := [.ignore, .gitignore, .exclude]

/-- Where a directory has its file of a kind. -/
def file (dir : Path) : IgnoreKind → Path
  | .ignore => dir.join (Utf8.encode ".ignore")
  | .gitignore => dir.join (Utf8.encode ".gitignore")
  | .exclude => dir.join (Utf8.encode ".git/info/exclude")

/-- The first of a directory's ignore files that reading does not come to the end of. -/
def endless? (fs : FileSystem) (dir : Path) : Option Path :=
  (all.map (file dir)).find? fun p => fs.contents p = .ok none

end IgnoreKind

structure IgnoreLevel where
  rules : IgnoreKind → RuleFile

namespace IgnoreLevel

def load (fs : FileSystem) (dir : Path) : IgnoreLevel × List RuleFault :=
  let read := fun k => RuleFile.load fs dir (IgnoreKind.file dir k)
  (⟨fun k => (read k).1⟩, IgnoreKind.all.flatMap fun k => (read k).2)

end IgnoreLevel

/-- The ignore file that holds for every tree, where the first of these settings says which; or the
settings that reading does not come to the end of. -/
def IgnoreSettings.excludesFile (fs : FileSystem) : List Path → Except Path (Option Path)
  | [] => .ok fs.ignoring.standard?
  | config :: more =>
    match fs.contents config with
    | .ok none => .error config
    | .ok (some content) =>
      match fs.ignoring.named? content with
      | some file => .ok (some file)
      | none => excludesFile fs more
    | .error _ => excludesFile fs more

/-- The rules that hold for every tree, for paths as seen from the current directory. What is
wrong with them is not reported. -/
def IgnoreSettings.rules (fs : FileSystem) : RuleFile :=
  match excludesFile fs fs.ignoring.configs with
  | .ok (some file) => (RuleFile.load fs (Location.path fs.cwd) file).1
  | _ => ⟨[], []⟩

/-- The ignore files that count in a directory, nearest first: those of the directories walked,
those of the directories around the root, whose real path is `base`, and behind them all the one
that holds for every tree. -/
structure IgnoreState where
  root : Path
  walked : List IgnoreLevel := []
  base : Path := ⟨[]⟩
  around : List IgnoreLevel := []
  everywhere : RuleFile := ⟨[], []⟩

namespace IgnoreState

/-- The path of an entry as seen from the top: its path below the root behind the root's own. -/
def fromTop (s : IgnoreState) (path : Bytes) : Bytes :=
  let below :=
    if RuleFile.isHere s.root.bytes then path
    else RuleFile.dropPrefix [Path.slash]
      (RuleFile.dropPrefix (RuleFile.withoutHere s.root.bytes) path)
  (s.base.join below).bytes

def verdictOf? (levels : List IgnoreLevel) (k : IgnoreKind) (path : Bytes) (isDir : Bool) :
    Option Verdict :=
  levels.findSome? fun l => (l.rules k).verdict? path isDir

def verdict? (s : IgnoreState) (p : Path) (isDir : Bool) : Option Verdict :=
  let path := RuleFile.withoutHere p.bytes
  (IgnoreKind.all.findSome? fun k =>
    (verdictOf? s.walked k path isDir).or (verdictOf? s.around k (s.fromTop path) isDir)).or
      (s.everywhere.verdict? path isDir)

def isHidden (p : Path) : Bool := ((Path.segments p.bytes).getLastD []).head? == some Path.dot

def skips (s : IgnoreState) (p : Path) (isDir : Bool) : Bool :=
  match s.verdict? p isDir with
  | some .skip => true
  | some .keep => false
  | none => isHidden p

def enter (fs : FileSystem) (s : IgnoreState) (dir : Path) : IgnoreState :=
  { s with walked := (IgnoreLevel.load fs dir).1 :: s.walked }

def guard : Guard IgnoreState := ⟨enter, skips, IgnoreKind.endless?⟩

/-- The real path of a root and the directories around it. A path that is too long to be looked up
is not told, and then none of them is known. -/
def surroundings (fs : FileSystem) (root : Path) : Path × List Location :=
  match fs.look .follow root with
  | .ok (l, .dir _) =>
    if (Location.path l).bytes.length < pathLimit then (Location.path l, Location.around l)
    else (⟨[]⟩, [])
  | _ => (⟨[]⟩, [])

/-- What counts before the root is entered, and the faults of the files around it, those at the
top first. -/
def atRoot (fs : FileSystem) (root : Path) : IgnoreState × List RuleFault :=
  let (base, dirs) := surroundings fs root
  let loaded := dirs.map fun m => IgnoreLevel.load fs (Location.path m)
  (⟨root, [], base, loaded.map (·.1), IgnoreSettings.rules fs⟩, loaded.reverse.flatMap (·.2))

/-- The first file around a root that reading does not come to the end of, from the top down. -/
def endlessAround? (fs : FileSystem) (root : Path) : Option Path :=
  (surroundings fs root).2.reverse.findSome? fun m => IgnoreKind.endless? fs (Location.path m)

def endlessOwn? (fs : FileSystem) (root : Path) : Option Path :=
  match fs.look .follow root with
  | .ok (_, .dir _) => IgnoreKind.endless? fs root
  | _ => none

end IgnoreState

namespace Walk

/-- The path that stands for the standard input, where there is nothing to walk. -/
def isStandardInput (p : Path) : Bool := p.components = [.name (Utf8.encode "-")]

/-- What is met before the root is walked, and what is known then if the walk comes that far. -/
def opening (fs : FileSystem) (root : Path) : List IgnoreFault × Option IgnoreState :=
  match IgnoreSettings.excludesFile fs fs.ignoring.configs with
  | .error config => ([.walk (.endless config)], none)
  | .ok _ =>
    if isStandardInput root then ([], none)
    else
      match IgnoreState.endlessAround? fs root with
      | some file => ([.walk (.endless file)], none)
      | none =>
        let (s, faults) := IgnoreState.atRoot fs root
        let before := if faults = [] then [] else [.rules faults]
        match IgnoreState.endlessOwn? fs root with
        | some file => (before ++ [.walk (.endless file)], none)
        | none => (before, some s)

def upToEndless : List (Except WalkFault Path) → List (Except WalkFault Path)
  | [] => []
  | .error (.endless file) :: _ => [.error (.endless file)]
  | item :: items => item :: upToEndless items

def unignored (fs : FileSystem) (followLinks : Bool) (root : Path) :
    List (Except IgnoreFault Path) :=
  let (before, start?) := opening fs root
  let found := match start? with
    | some s => upToEndless (files fs followLinks IgnoreState.guard s root)
    | none => []
  before.map .error ++ found.map fun item => item.mapError IgnoreFault.walk

end Walk

end ResourceManifest
