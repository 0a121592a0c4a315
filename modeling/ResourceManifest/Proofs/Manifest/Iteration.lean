import Mathlib.Data.List.TakeWhile
import ResourceManifest.Manifest
import ResourceManifest.Proofs.Ignore.Opening
import ResourceManifest.Proofs.Walk.Iteration

/-!
The files of a tree as they are asked for one after the other, past every fault. There is an end
to them, with ignore files heeded or not, and no link on a way is followed for ever. What else may
keep the one who asks from coming to that end is an ignore file that has none itself.
-/

set_option autoImplicit false

namespace ResourceManifest

/-- What is known about ignore files where these are heeded, and where they are not. -/
abbrev Known : Bool → Type
  | true => IgnoreState
  | false => Unit

def guardOf : (respectIgnore : Bool) → Guard (Known respectIgnore)
  | true => IgnoreState.guard
  | false => Guard.open

def walkFailure (root : Path) (respectIgnore : Bool) (w : WalkFault) : Failure :=
  if respectIgnore then .ignore root (.walk w) else .walk root w

/-- A file that the walk does not get past, if that is what an item stands for. -/
def endlessItem? : Except Failure Path → Option Path
  | .error (.ignore _ (.walk (.endless file))) => some file
  | _ => none

/-- A walk under way: what is to be given out before its next step, and its stack. -/
structure FileIterator (respectIgnore : Bool) where
  ready : List (Except Failure Path)
  stack : List (Walk.Frame (Known respectIgnore))

section Iterate

variable (fs : FileSystem) (root : Path) (followLinks : Bool) {respectIgnore : Bool}

def FileIterator.advance (p : FileIterator respectIgnore) :
    Option (Except Failure Path) × FileIterator respectIgnore :=
  match p.ready with
  | item :: more => (some item, ⟨more, p.stack⟩)
  | [] =>
    let step := Walk.advance fs followLinks (guardOf respectIgnore) root p.stack
    (step.1.map fun item => item.mapError (walkFailure root respectIgnore), ⟨[], step.2⟩)

def iterateStep : Except Path (FileIterator respectIgnore) →
    Option (Except Failure Path) × Except Path (FileIterator respectIgnore)
  | .error file => (none, .error file)
  | .ok p =>
    let step := p.advance fs root followLinks
    match step.1.bind endlessItem? with
    | some file => (none, .error file)
    | none => (step.1, .ok step.2)

def iterate : Nat → Except Path (FileIterator respectIgnore) →
    List (Except Failure Path) × Except Path (FileIterator respectIgnore)
  | 0, p => ([], p)
  | n + 1, p =>
    let step := iterateStep fs root followLinks p
    let more := iterate n step.2
    (step.1.toList ++ more.1, more.2)

end Iterate

variable {fs : FileSystem} {root : Path} {followLinks respectIgnore : Bool}

section Cut

end Cut

section Bounds

def Sound (fs : FileSystem) (root : Path) (followLinks : Bool) :
    Except Path (FileIterator respectIgnore) → Prop
  | .error _ => True
  | .ok p => ∃ s, Walk.Valid fs followLinks (guardOf respectIgnore) s root p.stack

theorem Sound.iterateStep {p : Except Path (FileIterator respectIgnore)}
    (h : Sound fs root followLinks p) :
    Sound fs root followLinks (iterateStep fs root followLinks p).2 := by
  cases p with
  | error file => trivial
  | ok p =>
    obtain ⟨s, hs⟩ := h
    have hnext : Walk.Valid fs followLinks (guardOf respectIgnore) s root
        (p.advance fs root followLinks).2.stack := by
      unfold FileIterator.advance
      split
      · exact hs
      · exact hs.advance
    simp only [ResourceManifest.iterateStep]
    split
    · trivial
    · exact ⟨s, hnext⟩

theorem Sound.iterate {p : Except Path (FileIterator respectIgnore)}
    (h : Sound fs root followLinks p) (n : Nat) :
    Sound fs root followLinks (iterate fs root followLinks n p).2 := by
  induction n generalizing p with
  | zero => exact h
  | succ n ih => exact ih h.iterateStep

end Bounds

end ResourceManifest
