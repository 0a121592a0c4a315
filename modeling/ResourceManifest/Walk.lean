import ResourceManifest.FileSystem

/-!
The regular files below a root, depth first, the entries of each directory in the order of their
names. A guard that sees every directory entered may have entries skipped. Links are followed to
files always and to directories only on demand; then a link to a directory that is being walked
is a fault, and the walk goes on behind it.
-/

set_option autoImplicit false

namespace ResourceManifest

/-- What decides which entries of a directory are skipped, with all that lies below them. -/
structure Guard (σ : Type) where
  /-- What is known after entering a directory, from what was known before. -/
  enter : FileSystem → σ → Path → σ
  /-- Whether to skip an entry of the directory entered last, given that it is a directory. -/
  skips : σ → Path → Bool → Bool
  /-- A file that is read for a directory, skipped or not, without an end. -/
  endless? : FileSystem → Path → Option Path

def Guard.open : Guard Unit := ⟨fun _ s _ => s, fun _ _ _ => false, fun _ _ => none⟩

inductive Kind where
  | directory | regular | other
  | broken (fault : WalkFault)
  deriving DecidableEq, Repr

namespace Walk

structure Ancestor where
  path : Path
  location : Location

/-- What the entry `n` at path `p` is by itself, below the given directories, nearest first. -/
def plainKind (fs : FileSystem) (followLinks : Bool) (above : List Ancestor) (p : Path)
    (n : Node) : Kind :=
  match n with
  | .dir _ => .directory
  | .file _ _ => .regular
  | .link _ =>
    match fs.look .follow p with
    | .error f => if followLinks then .broken (.file p f) else .other
    | .ok (l, n) =>
      if n.isFile then .regular
      else if n.isDir ∧ followLinks then
        match above.find? (·.location = l) with
        | some a => .broken (.loop a.path p)
        | none => .directory
      else .other
  | _ => .other

variable {σ : Type}

/-- What the entry is to a walk with a guard, which reads what it needs to at every directory. -/
def kind (fs : FileSystem) (guard : Guard σ) (followLinks : Bool) (above : List Ancestor)
    (p : Path) (n : Node) : Kind :=
  match plainKind fs followLinks above p n with
  | .directory =>
    match guard.endless? fs p with
    | some file => .broken (.endless file)
    | none => .directory
  | k => k

/-- The files below directory `p`. Paths grow with every level, and no directory is opened by a
path at the limit, so that many levels are enough. -/
def below (fs : FileSystem) (followLinks : Bool) (guard : Guard σ) :
    Nat → List Ancestor → σ → Path → List (Except WalkFault Path)
  | 0, _, _, _ => []
  | levels + 1, above, s, p =>
    match fs.look .follow p with
    | .error f => [.error (.file p f)]
    | .ok (l, n) =>
      if !n.isDir then [.error (.file p .notDirectory)]
      else
        let above := ⟨p, l⟩ :: above
        let s := guard.enter fs s p
        (fs.tree.names l).flatMap fun name =>
          let child := p.join name
          match fs.tree.get? (name :: l) with
          | none => []
          | some n =>
            match kind fs guard followLinks above child n with
            | .broken f => [.error f]
            | .directory =>
              if guard.skips s child true then []
              else below fs followLinks guard levels above s child
            | .regular => if guard.skips s child false then [] else [.ok child]
            | .other => []

/-- The files at or below `root`, which is followed if it is a link and never skipped. -/
def files (fs : FileSystem) (followLinks : Bool) (guard : Guard σ) (s : σ) (root : Path) :
    List (Except WalkFault Path) :=
  match fs.look .keep root with
  | .error f => [.error (.file root f)]
  | .ok _ =>
    match fs.stat root with
    | .error f => [.error (.file root f)]
    | .ok n =>
      if n.isDir then below fs followLinks guard (pathLimit + 1) [] s root
      else if n.isFile then [.ok root]
      else []

end Walk

end ResourceManifest
