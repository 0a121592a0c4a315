import ResourceManifest.FileSystem
import ResourceManifest.Text.Blank

set_option autoImplicit false

namespace ResourceManifest

inductive Verdict where
  | skip | keep
  deriving DecidableEq, Repr

structure Rule where
  glob : Glob
  verdict : Verdict
  onlyDirs : Bool
  deriving Repr

namespace Rule

def withoutBlanks (line : List Char) : List Char :=
  if [' ', '\\'].isPrefixOf line.reverse then line else trimEnd line

structure Marks where
  verdict : Verdict := .skip
  anchored : Bool := false
  onlyDirs : Bool := false
  pattern : List Char

/-- Takes off what stands in front: an exclamation mark, and the slash that anchors. -/
def frontMarks (line : List Char) : Marks :=
  match line with
  | '\\' :: '!' :: r => { pattern := '!' :: r }
  | '\\' :: '#' :: r => { pattern := '#' :: r }
  | '!' :: '/' :: r => { verdict := .keep, anchored := true, pattern := r }
  | '!' :: r => { verdict := .keep, pattern := r }
  | '/' :: r => { anchored := true, pattern := r }
  | r => { pattern := r }

def endMarks (m : Marks) : Marks :=
  match m.pattern.reverse with
  | '/' :: '\\' :: r => { m with onlyDirs := true, pattern := r.reverse }
  | '/' :: r => { m with onlyDirs := true, pattern := r.reverse }
  | _ => m

/-- The pattern for whole paths: without a slash of its own it holds at every depth, and two
stars at the end ask for something below. -/
def wholePattern (m : Marks) : List Char :=
  let p := m.pattern
  let p :=
    if m.anchored ∨ p.contains '/' ∨ p = ['*', '*'] then p else '*' :: '*' :: '/' :: p
  if ['*', '*', '/'].isPrefixOf p.reverse then p ++ ['/', '*'] else p

def parse? (line : String) : Except GlobProblem (Option Rule) := do
  if line.toList.head? = some '#' then return none
  let cs := withoutBlanks line.toList
  if cs = [] then return none
  let m := endMarks (frontMarks cs)
  let glob ← Glob.parse (String.ofList (wholePattern m))
  return some ⟨glob, m.verdict, m.onlyDirs⟩

def applies (r : Rule) (path : Bytes) (isDir : Bool) : Bool :=
  (!r.onlyDirs || isDir) && r.glob.holds path

end Rule

def byteLines : Bytes → List Bytes
  | [] => []
  | b :: r =>
    if b = 0x0A then [] :: byteLines r
    else match byteLines r with
      | l :: ls => if r = [] then [[b]] else
          if b = 0x0D ∧ r.head? = some 0x0A then l :: ls else (b :: l) :: ls
      | [] => [[b]]

/-- The rules of one ignore file, for the directory whose path is `root`. -/
@[ext]
structure RuleFile where
  root : Bytes
  rules : List Rule
  deriving Repr

structure ReadRules where
  rules : List Rule := []
  faults : List LineFault := []

namespace RuleFile

def withoutOrderMarks (line : String) : String :=
  String.ofList (line.toList.dropWhile (· == '\uFEFF'))

def readLines (file : Path) : Nat → List Bytes → ReadRules
  | _, [] => {}
  | n, l :: ls =>
    match Utf8.decode? l with
    | none => { faults := [⟨file, n, .notText⟩] }
    | some line =>
      let more := readLines file (n + 1) ls
      let line := if n = 1 then withoutOrderMarks line else line
      match Rule.parse? line with
      | .ok none => more
      | .ok (some r) => { more with rules := r :: more.rules }
      | .error p =>
        let shown := String.ofList (Rule.withoutBlanks line.toList)
        { more with faults := ⟨file, n, .pattern shown p⟩ :: more.faults }

def reported : List LineFault → List LineFault
  | [⟨_, _, .notText⟩] => []
  | fs => fs

def withoutHere (p : Bytes) : Bytes :=
  match p with
  | 0x2E :: 0x2F :: r => r
  | p => p

/-- The rules of the ignore file `file` for directory `dir`, with its faults. If the patterns are
refused, not one of them counts. -/
def load (fs : FileSystem) (dir file : Path) : RuleFile × List RuleFault :=
  let r := match fs.contents file with
    | .ok (some content) => readLines file 1 (byteLines content)
    | _ => {}
  let faults := (reported r.faults).map .line
  match fs.ignoring.limit.refusal? (r.rules.map Rule.glob) with
  | none => (⟨withoutHere dir.bytes, r.rules⟩, faults)
  | some text => (⟨withoutHere dir.bytes, []⟩, faults ++ [.patterns text])

def dropPrefix (pre p : Bytes) : Bytes := (after? pre p).getD p

def isHere (p : Bytes) : Bool := (Path.components ⟨p⟩) = [.here]

def strip (f : RuleFile) (path : Bytes) : Bytes :=
  let path := withoutHere path
  if isHere f.root ∨ !path.contains Path.slash then path
  else match after? f.root path with
    | some p => dropPrefix [Path.slash] p
    | none => path

def verdict? (f : RuleFile) (path : Bytes) (isDir : Bool) : Option Verdict :=
  let stripped := f.strip path
  (f.rules.reverse.find? fun r => r.applies stripped isDir).map (·.verdict)

end RuleFile

end ResourceManifest
