import ResourceManifest.Ignore.Guard
import ResourceManifest.Json
import ResourceManifest.Log

set_option autoImplicit false

namespace ResourceManifest

structure Noted (α : Type) where
  notes : List Note
  result : α

/-- The files that a walk meets, to its first fault or, if that is the walk's own affair, past
it. -/
def findFiles (fs : FileSystem) (root : Path) (followLinks respectIgnore : Bool) :
    List (Except Failure Path) :=
  if respectIgnore then
    (Walk.unignored fs followLinks root).map fun item => item.mapError (Failure.ignore root)
  else (Walk.files fs followLinks Guard.open () root).map fun item =>
    item.mapError (Failure.walk root)

namespace Manifest

def lossyNotes (root file : Path) : List Note :=
  (((root.namesBelow file).getD []).filter fun n => (Utf8.decode? n).isNone).map
    fun _ => .lossyName file

/-- Whether a file's name has an accepted extension; a path without a name is passed over. -/
def accepts? (allowed : List String) (file : Path) : Option Bool :=
  file.fileName?.map fun n => isAllowed (Utf8.decodeLossy n) allowed

/-- The entries of the files met, up to the first fault. -/
def entries (root : Path) (allowed : List String) :
    List (Except Failure Path) → Noted (Except Failure (List String))
  | [] => ⟨[], .ok []⟩
  | .error f :: _ => ⟨[], .error f⟩
  | .ok file :: rest =>
    let more := entries root allowed rest
    match accepts? allowed file with
    | none => more
    | some false => ⟨.skipped file :: more.notes, more.result⟩
    | some true =>
      match root.relativeEntry file with
      | none => more
      | some e => ⟨lossyNotes root file ++ more.notes, more.result.map (e :: ·)⟩

def checkRoot (fs : FileSystem) (root : Path) : Except Failure Unit :=
  match fs.stat root with
  | .ok n => if n.isDir then .ok () else .error (.rootNotDirectory root)
  | .error .notFound => .error (.rootNotFound root)
  | .error f => .error (.io root f)

/-- The entries of a job's manifest, in the order of the walk. -/
def collect (fs : FileSystem) (job : Job) : Noted (Except Failure (List String)) :=
  match checkRoot fs job.root with
  | .error f => ⟨[], .error f⟩
  | .ok () =>
    entries job.root job.allowed (findFiles fs job.root job.followLinks job.respectIgnore)

def content (es : List String) : Bytes := Utf8.encode (Json.strings es).compact

/-- Writes a manifest; a directory that is missing is not made. -/
def write (fs : FileSystem) (output : Path) (es : List String) (mode : WriteMode) :
    FileSystem × Except Failure Unit :=
  match mode with
  | .direct =>
    match fs.overwrite output (content es) with
    | .ok fs => (fs, .ok ())
    | .error f => (fs, .error (.io output f))
  | .atomic =>
    match fs.replace output (content es) with
    | (fs, .ok ()) => (fs, .ok ())
    | (fs, .error (.inDirectory dir f)) => (fs, .error (.io dir f))
    | (fs, .error (.atFile f)) => (fs, .error (.io output f))

/-- Does a job: collects its entries and writes them. -/
def list (fs : FileSystem) (job : Job) : FileSystem × Noted (Except Failure Listing) :=
  let found := collect fs job
  match found.result with
  | .error f => (fs, ⟨found.notes, .error f⟩)
  | .ok es =>
    match write fs job.output es job.mode with
    | (fs, .error f) => (fs, ⟨found.notes, .error f⟩)
    | (fs, .ok ()) =>
      (fs, ⟨found.notes ++ [.written job.root job.output es.length job.mode],
        .ok ⟨job.root.toString, job.output.toString, es⟩⟩)

end Manifest

end ResourceManifest
