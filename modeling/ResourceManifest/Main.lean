import ResourceManifest.FileTree.Build
import ResourceManifest.Ignore.Settings
import ResourceManifest.Run

set_option autoImplicit false

namespace ResourceManifest.Snapshot

/-- A tree being read, and the directories of which all entries have been read. -/
structure Reading where
  fs : FileSystem
  listed : List Location := []

abbrev Reader := StateT Reading IO

def nowhere : Path := ⟨[0]⟩

def ignoreNames : List String := [".ignore", ".gitignore", "exclude"]

/-- What stands at a path. A link is taken to lead straight to the end of its chain, and contents
are read of the files alone that the run reads. -/
def node? (isRead : Bool) (p : Path) : IO (Option Node) := do
  let file := (← IO.currentDir) / p.toString
  match ← file.symlinkMetadata.toBaseIO with
  | .error _ => return none
  | .ok m =>
    match m.type with
    | .dir => return some (.dir 0o755)
    | .other => return some (.fifo 0o644)
    | .symlink =>
      match ← (IO.FS.realPath file).toBaseIO with
      | .ok target => return some (.link (.ofString target.toString))
      | .error _ => return some (.link nowhere)
    | .file =>
      if isRead || ignoreNames.any fun n => p.toString.endsWith n then
        match ← (IO.FS.readBinFile file).toBaseIO with
        | .ok content => return some (.file 0o644 content.toList)
        | .error _ => return some (.file 0o644 [])
      else return some (.file 0o644 [])

def visit (isRead : Bool) (p : Path) : Reader Unit := do
  if let some n ← node? isRead p then
    modify fun s => { s with fs := s.fs.add p n }

def reach (isRead : Bool) (p : Path) : Reader Unit := do
  for q in FileSystem.waypoints p do
    visit isRead q
    if let .ok (_, .link target) := (← get).fs.look .keep q then
      for t in FileSystem.waypoints target do
        visit isRead t

/-- Reads the entries of a directory and, level by level, those of the directories below it. -/
partial def below (followLinks : Bool) (p : Path) : Reader Unit := do
  if let .ok (l, .dir _) := (← get).fs.look .follow p then
    unless (← get).listed.contains l do
      modify fun s => { s with listed := l :: s.listed }
      let dir := (← IO.currentDir) / p.toString
      match ← (dir.readDir : IO _).toBaseIO with
      | .error _ => pure ()
      | .ok entries =>
        for e in entries do
          let q := p.join (Utf8.encode e.fileName)
          visit false q
          match (← get).fs.look .keep q with
          | .ok (_, .dir _) => below followLinks q
          | .ok (_, .link target) =>
            reach false target
            if followLinks then below true q
          | _ => pure ()

def settings : Reader Unit := do
  for p in (← get).fs.ignoring.configs do reach true p
  let fs := (← get).fs
  if let .ok (some file) := IgnoreSettings.excludesFile fs fs.ignoring.configs then reach true file

/-- Reads the ignore files of the directories around a root, and of the root itself. -/
def around (root : Path) : Reader Unit := do
  settings
  if let .ok (l, _) := (← get).fs.look .follow root then
    for m in l :: Location.around l do
      for k in IgnoreKind.all do
        reach false (IgnoreKind.file (Location.path m) k)

def job (j : Job) : Reader Unit := do
  reach false j.root
  if j.respectIgnore then around j.root
  below j.followLinks j.root
  reach false (FileSystem.directoryOf j.output)
  reach false j.output

/-- The jobs of a command line that can be read, on the tree that holds its configuration. -/
def jobs (words : List Bytes) (fs : FileSystem) : List Job :=
  match Arguments.parse words with
  | .error _ => []
  | .ok a => (a.jobs fs).toOption.getD []

def read (words : List Bytes) : Reader Unit := do
  let cwd := Path.ofString (← IO.currentDir).toString
  reach false cwd
  modify fun s => { s with fs := (s.fs.changeTo cwd).toOption.getD s.fs }
  if let .ok { configFile? := some c, .. } := Arguments.parse words then reach true c
  for j in jobs words (← get).fs do job j

def take (words : List Bytes) : IO FileSystem := do
  let ignoring := IgnoreSettings.ofHome (← IO.getEnv "HOME") (← IO.getEnv "XDG_CONFIG_HOME")
  let ((), s) ← (read words).run { fs := { tree := .empty, ignoring } }
  return s.fs

def moved (js : List Job) (fs : FileSystem) : List Location :=
  js.filterMap fun j =>
    if j.mode = .atomic then (fs.locate .keep j.output).toOption else none

def save (before after : FileSystem) (moved : List Location) : IO Unit := do
  for (l, n) in after.tree.nodes do
    if let .file _ content := n then
      unless before.tree.get? l = some n do
        let name := (Location.path l).toString
        let content : ByteArray := ⟨content.toArray⟩
        if moved.contains l then
          let beside := name ++ ".tmp"
          IO.FS.writeBinFile beside content
          IO.FS.rename beside name
        else IO.FS.writeBinFile name content

def seconds (milliseconds : Nat) : String :=
  let hundredths := (milliseconds + 5) / 10
  let places := (hundredths % 100).repr
  (hundredths / 100).repr ++ "." ++ (if places.length = 1 then "0" ++ places else places)

def wantsColor : IO Bool := do
  match ← IO.getEnv "CLICOLOR_FORCE", ← IO.getEnv "NO_COLOR" with
  | some v, _ => return v ≠ "0"
  | none, some _ => return false
  | none, none => (← IO.getStdout).isTty

def isEndless (words : List Bytes) (fs : FileSystem) : Bool :=
  match Arguments.parse words with
  | .error _ => false
  | .ok a => match (Run.arguments fs a).2.result with
    | .error f => f.failure.isEndless
    | .ok _ => false

end ResourceManifest.Snapshot

partial def waitForever : IO Unit := do
  IO.sleep 1000
  waitForever

open ResourceManifest in
def main (texts : List String) : IO UInt32 := do
  let words := texts.map Utf8.encode
  let start ← IO.monoMsNow
  let color ← Snapshot.wantsColor
  let fs ← Snapshot.take words
  let elapsed := Snapshot.seconds ((← IO.monoMsNow) - start)
  let out := Run.main { color, elapsed, time := elapsed ++ "s" } fs words
  Snapshot.save fs out.fs (Snapshot.moved (Snapshot.jobs words fs) out.fs)
  if Snapshot.isEndless words fs then waitForever
  IO.print out.stdout
  IO.eprint out.stderr
  return out.exitCode.toUInt32
