import ResourceManifest.Sequence
import ResourceManifest.Text.Quoted

/-!
Paths: bytes as they are spelled, and the components they stand for. Repeated slashes and inner
`.` segments mean nothing, a leading `.` of a relative path and every `..` are kept. A file is
named relative to a root by the components that follow the root's.
-/

set_option autoImplicit false

namespace ResourceManifest

abbrev Name := Bytes

structure Path where
  bytes : Bytes
  deriving DecidableEq, Repr, Inhabited

namespace Path

def slash : UInt8 := 0x2F
def dot : UInt8 := 0x2E

def ofString (s : String) : Path := ⟨Utf8.encode s⟩

def toString (p : Path) : String := Utf8.decodeLossy p.bytes

def quoted (p : Path) : String := quotedBytes p.bytes

def segments : Bytes → List Bytes
  | [] => [[]]
  | b :: r =>
    if b = slash then [] :: segments r
    else match segments r with
      | s :: ss => (b :: s) :: ss
      | [] => [[b]]

def joinSegments : List Bytes → Bytes
  | [] => []
  | [s] => s
  | s :: t :: ss => s ++ slash :: joinSegments (t :: ss)

theorem segments_ne_nil (bs : Bytes) : segments bs ≠ [] := by
  cases bs with
  | nil => simp [segments]
  | cons b r =>
    simp only [segments]
    split
    · simp
    · split <;> simp

theorem joinSegments_cons_cons (b : UInt8) (s : Bytes) (ss : List Bytes) :
    joinSegments ((b :: s) :: ss) = b :: joinSegments (s :: ss) := by
  cases ss <;> simp [joinSegments]

theorem joinSegments_segments (bs : Bytes) : joinSegments (segments bs) = bs := by
  induction bs with
  | nil => rfl
  | cons b r ih =>
    by_cases h : b = slash
    · subst h
      cases hs : segments r with
      | nil => exact absurd hs (segments_ne_nil r)
      | cons s ss =>
        rw [hs] at ih
        simp [segments, hs, joinSegments, ih]
    · cases hs : segments r with
      | nil => exact absurd hs (segments_ne_nil r)
      | cons s ss =>
        rw [hs] at ih
        simp [segments, hs, h, joinSegments_cons_cons, ih]

def isAbsolute (p : Path) : Bool := p.bytes.head? == some slash

inductive Component where
  | root | here | up
  | name : Name → Component
  deriving DecidableEq, Repr

def component? (s : Bytes) : Option Component :=
  if s = [] ∨ s = [dot] then none
  else if s = [dot, dot] then some .up
  else some (.name s)

def components (p : Path) : List Component :=
  match segments p.bytes with
  | [] :: t :: ss => .root :: (t :: ss).filterMap component?
  | s :: ss =>
    if s = [dot] then .here :: ss.filterMap component? else (s :: ss).filterMap component?
  | [] => []

def Component.name? : Component → Option Name
  | .name n => some n
  | _ => none

def fileName? (p : Path) : Option Name := p.components.getLast?.bind Component.name?

/-- The part that no step to the parent removes: the first slash, or a leading `.`. -/
def head (p : Path) : Bytes :=
  match segments p.bytes with
  | [] :: _ :: _ => [slash]
  | s :: _ => if s = [dot] then [dot] else []
  | [] => []

/-- The path without its last component and without the separators this leaves at the end. -/
def parent? (p : Path) : Option Path :=
  let isNothing := fun s => (component? s).isNone
  let body := p.bytes.drop p.head.length
  match (segments body).reverse.dropWhile isNothing with
  | _ :: before => some ⟨p.head ++ joinSegments (before.dropWhile isNothing).reverse⟩
  | [] => if p.head = [dot] then some ⟨[]⟩ else none

/-- The path of the entry `n` of directory `p`. -/
def join (p : Path) (n : Name) : Path :=
  if p.bytes = [] ∨ p.bytes.getLast? = some slash then ⟨p.bytes ++ n⟩
  else ⟨p.bytes ++ slash :: n⟩

def namesBelow (root file : Path) : Option (List Name) :=
  (after? root.components file.components).map (·.filterMap Component.name?)

def entryText (ns : List Name) : String := String.intercalate "/" (ns.map Utf8.decodeLossy)

/-- The text of `file` relative to `root`, if it lies below it. -/
def relativeEntry (root file : Path) : Option String :=
  match namesBelow root file with
  | some (n :: ns) => some (entryText (n :: ns))
  | _ => none

end Path

end ResourceManifest
