import ResourceManifest.Failure
import ResourceManifest.FileTree.Basic

/-!
From paths to locations. Links on the way are followed, up to a limit; whether a link at the end
is followed, and whether the end has to exist, depends on what the location is for.
-/

set_option autoImplicit false

namespace ResourceManifest

inductive Ending where
  /-- Whatever stands there, a link included. -/
  | keep
  /-- What a link there leads to. -/
  | follow
  /-- As `follow`, but there may be nothing yet. A directory will not do. -/
  | create
  deriving DecidableEq, Repr

def linkLimit : Nat := 40

def pathLimit : Nat := 4096

def nameLimit : Nat := 255

namespace Path

/-- The steps that a path takes; an empty one at the end stands for a slash there, which asks
for a directory. -/
def steps (p : Path) : List Bytes :=
  let names := (segments p.bytes).filter (· ≠ [])
  if names ≠ [] ∧ p.bytes.getLast? = some slash then names ++ [[]] else names

end Path

namespace FileTree

def isDots (step : Bytes) : Bool := step = [] || step = [Path.dot] || step = [Path.dot, Path.dot]

/-- Takes steps from a location up to the first link that is to be followed, and goes on there by
`onLink`. With the location comes the number of links that may still be followed. -/
def walkSteps (t : FileTree) (ending : Ending) (links : Nat)
    (onLink : Location → List Bytes → Except FileFault (Location × Nat)) :
    Location → List Bytes → Except FileFault (Location × Nat)
  | here, [] => if ending = .create then .error .isDirectory else .ok (here, links)
  | here, step :: rest =>
    if !t.isDir here then .error .notDirectory
    else if ending = .create ∧ (rest = [[]] ∨ (rest = [] ∧ isDots step)) then
      .error .isDirectory
    else if step = [] ∨ step = [Path.dot] then walkSteps t ending links onLink here rest
    else if step = [Path.dot, Path.dot] then walkSteps t ending links onLink here.tail rest
    else if nameLimit < step.length then .error .nameTooLong
    else
      let there := step :: here
      match t.get? there with
      | none =>
        if rest = [] ∧ ending = .create ∧ isEntryName step then .ok (there, links)
        else .error .notFound
      | some (.link target) =>
        if rest = [] ∧ ending = .keep then .ok (there, links)
        else onLink (if target.isAbsolute then [] else here) (target.steps ++ rest)
      | some n =>
        if rest = [] then
          if ending = .create ∧ n.isDir then .error .isDirectory else .ok (there, links)
        else walkSteps t ending links onLink there rest

/-- Takes steps from a location; `links` more links may be followed. -/
def walk (t : FileTree) (ending : Ending) :
    Nat → Location → List Bytes → Except FileFault (Location × Nat)
  | 0 => t.walkSteps ending 0 fun _ _ => .error .tooManyLinks
  | links + 1 => t.walkSteps ending (links + 1) (t.walk ending links)

def checkPath (p : Path) : Except FileFault Unit :=
  if p.bytes.contains 0 then .error .nulInName
  else if p.bytes = [] then .error .notFound
  else if pathLimit ≤ p.bytes.length then .error .nameTooLong
  else .ok ()

def resolve (t : FileTree) (cwd : Location) (ending : Ending) (p : Path) :
    Except FileFault Location := do
  checkPath p
  let (l, _) ← t.walk ending linkLimit (if p.isAbsolute then [] else cwd) p.steps
  .ok l

/-- The location that a path names for an entry to be put there: the directory is resolved, and
a link that stands there is not followed. -/
def resolveEntry (t : FileTree) (cwd : Location) (p : Path) : Except FileFault Location := do
  checkPath p
  let start := if p.isAbsolute then [] else cwd
  let names := (Path.segments p.bytes).filter (· ≠ [])
  match names.reverse with
  | [] => .error .busy
  | last :: before =>
    let (parent, _) ← t.walk .follow linkLimit start (before.reverse ++ [[]])
    if isDots last then .error .busy
    else if nameLimit < last.length then .error .nameTooLong
    else .ok (last :: parent)

end FileTree

end ResourceManifest
