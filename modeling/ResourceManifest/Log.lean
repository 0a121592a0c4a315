import ResourceManifest.Job
import ResourceManifest.Text.Style

/-!
What a run notes beside its results, and which notes a filter lets through. A filter lists
levels, each for the notes whose target starts with a given text; the longest such text decides.
-/

set_option autoImplicit false

namespace ResourceManifest

inductive LogLevel where
  | error | warn | info | debug | trace
  deriving DecidableEq, Repr

namespace LogLevel

def all : List LogLevel := [.error, .warn, .info, .debug, .trace]

def name : LogLevel → String
  | .error => "error"
  | .warn => "warn"
  | .info => "info"
  | .debug => "debug"
  | .trace => "trace"

def rank : LogLevel → Nat
  | .error => 1
  | .warn => 2
  | .info => 3
  | .debug => 4
  | .trace => 5

def label : LogLevel → String
  | .error => "ERROR"
  | .warn => " WARN"
  | .info => " INFO"
  | .debug => "DEBUG"
  | .trace => "TRACE"

end LogLevel

inductive Note where
  /-- A file without an accepted extension. -/
  | skipped (path : Path)
  /-- A file with a name below the root that is not valid as text. -/
  | lossyName (path : Path)
  | written (root output : Path) (count : Nat) (mode : WriteMode)
  deriving DecidableEq, Repr

namespace Note

def level : Note → LogLevel
  | .skipped _ => .debug
  | .lossyName _ => .warn
  | .written _ _ _ _ => .info

def message : Note → String
  | .skipped _ => "skipped"
  | .lossyName _ => "non UTF-8 path component, using lossy name"
  | .written _ _ _ _ => "manifest written"

def fields : Note → List (String × String)
  | .skipped p => [("path", p.toString)]
  | .lossyName p => [("path", p.toString)]
  | .written root output count mode =>
    [("root", root.toString), ("output", output.toString), ("count", count.repr),
      ("mode", mode.name)]

def target : String := "resource_lister::lister"

def levelStyle : LogLevel → Style
  | .debug => .blue
  | .info => .green
  | .warn => .yellow
  | _ => .plain

/-- A note as a line; `time` is when it was taken. -/
def line (color : Bool) (time : String) (n : Note) : String :=
  Style.dimmed.wrap color time ++ " " ++ (levelStyle n.level).wrap color n.level.label ++ " " ++
    n.message ++
    String.join (n.fields.map fun f =>
      " " ++ Style.italic.wrap color f.1 ++ Style.dimmed.wrap color "=" ++ f.2) ++ "\n"

end Note

/-- The least grave rank that is let through for targets that start with a text. -/
structure LogDirective where
  target : String
  rank : Nat
  deriving DecidableEq, Repr

namespace LogDirective

def lower (s : String) : String := s.map Char.toLower

def rank? (s : String) : Option Nat :=
  match LogLevel.all.find? (·.name == lower s) with
  | some l => some l.rank
  | none =>
    if lower s = "off" then some 0
    else match s.toList with
      | [c] => if '0' ≤ c ∧ c ≤ '5' then some (c.toNat - '0'.toNat) else none
      | _ => none

def isTargetChar (c : Char) : Bool := c.isAlphanum || c == '_' || c == ':' || c == '-'

def parse? (s : String) : Option LogDirective :=
  match rank? s with
  | some r => some ⟨"", r⟩
  | none =>
    let target := String.ofList (s.toList.takeWhile (· ≠ '='))
    if target = "" ∨ !target.toList.all isTargetChar then none
    else match s.toList.dropWhile (· ≠ '=') with
      | [] => some ⟨target, LogLevel.trace.rank⟩
      | [_] => some ⟨target, LogLevel.trace.rank⟩
      | _ :: level => (rank? (String.ofList level)).map fun r => ⟨target, r⟩

end LogDirective

abbrev LogFilter := List LogDirective

namespace LogFilter

/-- Reads a filter; what is no directive is passed over, and none at all stands for `warn`. -/
def parse (s : String) : LogFilter :=
  match (s.toList.splitOn ',').filterMap (LogDirective.parse? ∘ String.ofList) with
  | [] => [⟨"", LogLevel.warn.rank⟩]
  | ds => ds

def deciding? (f : LogFilter) (target : String) : Option LogDirective :=
  (f.filter fun d => d.target.toList.isPrefixOf target.toList).foldl (fun best? d =>
    match best? with
    | some b => if d.target.length < b.target.length then some b else some d
    | none => some d) none

def passes (f : LogFilter) (n : Note) : Bool :=
  (f.deciding? Note.target).any fun d => n.level.rank ≤ d.rank

end LogFilter

end ResourceManifest
