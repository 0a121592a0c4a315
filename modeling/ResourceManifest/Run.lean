import ResourceManifest.CommandLine.Message
import ResourceManifest.Config
import ResourceManifest.Manifest

set_option autoImplicit false

namespace ResourceManifest

inductive RunFailure where
  | loading (config : Path) (failure : Failure)
  | listing (root output : Path) (failure : Failure)
  deriving DecidableEq, Repr

namespace RunFailure

def failure : RunFailure → Failure
  | .loading _ f => f
  | .listing _ _ f => f

/-- What was being done, then what went wrong and why. -/
def text : RunFailure → String
  | .loading p f => "Failed to load configuration from " ++ p.quoted ++ ": " ++ f.chain
  | .listing root output f =>
    "Failed to list resources under " ++ root.quoted ++ " into " ++ output.quoted ++ ": " ++
      f.chain

end RunFailure

namespace Config

def load (fs : FileSystem) (path : Path) : Except Failure (List Job) :=
  match fs.read path with
  | .ok bs => read path bs
  | .error .isDirectory => .error (.config path (.file .isDirectory))
  | .error f => .error (.io path f)

end Config

namespace Arguments

/-- The jobs asked for: those of the configuration file, if one is named, or else the one that
the flags describe. -/
def jobs (fs : FileSystem) (a : Arguments) : Except RunFailure (List Job) :=
  match a.configFile? with
  | none => .ok [a.job]
  | some c =>
    match Config.load fs c with
    | .ok jobs => .ok jobs
    | .error f => .error (.loading c f)

end Arguments

namespace Run

/-- Does jobs in their order and stops at the first failure; what was written stays. -/
def jobs (fs : FileSystem) : List Job → FileSystem × Noted (Except RunFailure (List Listing))
  | [] => (fs, ⟨[], .ok []⟩)
  | job :: rest =>
    match Manifest.list fs job with
    | (fs, ⟨notes, .error f⟩) => (fs, ⟨notes, .error (.listing job.root job.output f)⟩)
    | (fs, ⟨notes, .ok l⟩) =>
      let (fs, more) := jobs fs rest
      (fs, ⟨notes ++ more.notes, more.result.map (l :: ·)⟩)

def arguments (fs : FileSystem) (a : Arguments) :
    FileSystem × Noted (Except RunFailure (List Listing)) :=
  match a.jobs fs with
  | .ok js => jobs fs js
  | .error f => (fs, ⟨[], .error f⟩)

/-- What the surroundings decide: colours, which notes are printed, the time that opens a note,
and the seconds that the run took. -/
structure Setting where
  color : Bool := false
  filter : LogFilter := .parse ""
  time : String := ""
  elapsed : String := "0.00"

structure Outcome where
  fs : FileSystem
  exitCode : Nat
  stdout : String
  stderr : String

/-- The notes that the filter lets through, as lines. -/
def log (s : Setting) (notes : List Note) : String :=
  String.join ((notes.filter s.filter.passes).map (Note.line s.color s.time))

def refusal (s : Setting) (fs : FileSystem) (r : Refusal) : Outcome :=
  let text := if s.color then r.text.render true else r.text.plainText
  match r with
  | .misuse _ => ⟨fs, r.exitCode, "", text⟩
  | _ => ⟨fs, r.exitCode, text, ""⟩

/-- The whole program on the words of its command line. -/
def main (s : Setting) (fs : FileSystem) (words : List Bytes) : Outcome :=
  match Arguments.parse words with
  | .error r => refusal s fs r
  | .ok a =>
    let (fs, out) := arguments fs a
    let log := log s out.notes
    match out.result with
    | .ok ls =>
      ⟨fs, 0, if a.json then Report.json ls else Report.human s.color s.elapsed ls, log⟩
    | .error f =>
      if a.json then ⟨fs, 1, Report.jsonError f.text, log⟩
      else ⟨fs, 1, "", log ++ "Error: " ++ f.text ++ "\n"⟩

end Run

end ResourceManifest
