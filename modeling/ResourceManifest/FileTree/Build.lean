import ResourceManifest.FileSystem

set_option autoImplicit false

namespace ResourceManifest.FileSystem

def newDirMode (fs : FileSystem) : Nat := 0o777 - (0o777 &&& fs.umask)

def add (fs : FileSystem) (p : Path) (n : Node) : FileSystem :=
  match fs.tree.resolveEntry fs.cwd p with
  | .ok l => if (fs.tree.get? l).isNone then fs.put l n else fs
  | .error _ => fs

/-- The paths of the directories on the way to the end of a path, the nearest to the top first. -/
def waypoints (p : Path) : List Path :=
  let ss := Path.segments p.bytes
  (List.range ss.length).map fun i => ⟨Path.joinSegments (ss.take (i + 1))⟩

def addDirectory (fs : FileSystem) (p : Path) : FileSystem :=
  (waypoints p).foldl (fun fs q =>
    match fs.look .follow q with
    | .error .notFound => fs.add q (.dir fs.newDirMode)
    | _ => fs) fs

def addParents (fs : FileSystem) (p : Path) : FileSystem :=
  match p.parent? with
  | some d => fs.addDirectory d
  | none => fs

def addFile (fs : FileSystem) (p : Path) (content : Bytes) (mode? : Option Nat) : FileSystem :=
  let fs := fs.addParents p
  match fs.overwrite p content with
  | .error _ => fs
  | .ok fs =>
    match mode?, fs.look .follow p with
    | some mode, .ok (l, .file _ content) => fs.put l (.file mode content)
    | _, _ => fs

def addLink (fs : FileSystem) (p target : Path) : FileSystem :=
  (fs.addParents p).add p (.link target)

def addPipe (fs : FileSystem) (p : Path) : FileSystem :=
  (fs.addParents p).add p (.fifo fs.newMode)

def remove (fs : FileSystem) (p : Path) : FileSystem :=
  match fs.locate .keep p with
  | .ok l => fs.erase l
  | .error _ => fs

def withDevices (fs : FileSystem) : FileSystem :=
  let root : FileSystem := { fs with cwd := [] }
  let root := root.addDirectory (.ofString "/dev")
  let root := root.add (.ofString "/dev/null") (.device .null 0o666)
  let root := root.add (.ofString "/dev/full") (.device .full 0o666)
  { root with cwd := fs.cwd }

end ResourceManifest.FileSystem
