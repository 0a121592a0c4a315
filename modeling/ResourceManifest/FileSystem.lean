import ResourceManifest.FileTree.Resolve
import ResourceManifest.Ignore.Limit

/-!
A file system as a running program sees it: a tree, the directory that relative paths start
from, the permission bits that new files do not get, how files are named that may have any
name, and what ignore files there are besides those in the tree.
-/

set_option autoImplicit false

namespace ResourceManifest

/-- A choice of names for new files: one that is not taken, whatever names are. -/
structure Naming where
  pick : List Name → Name
  fresh : ∀ taken, pick taken ∉ taken
  plain : ∀ taken, Path.slash ∉ pick taken ∧ 0 ∉ pick taken ∧
    FileTree.isDots (pick taken) = false

namespace Naming

def digits (i : Nat) : List Char :=
  let ds := Nat.toDigits 10 i
  List.replicate (6 - ds.length) '0' ++ ds

theorem ofDigitChars_digits (i : Nat) : Nat.ofDigitChars 10 (digits i) 0 = i := by
  have hz : ∀ k, Nat.ofDigitChars 10 (List.replicate k '0') 0 = 0 := by
    intro k
    induction k with
    | zero => rfl
    | succ k ih => simp [List.replicate_succ, Nat.ofDigitChars_cons, ih]
  rw [digits, Nat.ofDigitChars_append, hz, Nat.ofDigitChars_toDigits (by decide) (by decide)]

theorem isDigit_of_mem_digits {c : Char} {i : Nat} (h : c ∈ digits i) : c.isDigit = true := by
  rcases List.mem_append.1 h with h | h
  · rw [List.eq_of_mem_replicate h]
    rfl
  · exact Nat.isDigit_of_mem_toDigits (by decide) (by decide) h

def number (i : Nat) : Name := Utf8.encodeChars (".tmp".toList ++ digits i)

theorem number_injective {i j : Nat} (h : number i = number j) : i = j := by
  have hd : digits i = digits j := List.append_cancel_left (Utf8.encodeChars_injective h)
  rw [← ofDigitChars_digits i, hd, ofDigitChars_digits]

theorem toNat_of_mem_digits {c : Char} {i : Nat} (h : c ∈ digits i) :
    48 ≤ c.toNat ∧ c.toNat ≤ 57 := by
  have hd := isDigit_of_mem_digits h
  simp [Char.isDigit, UInt32.le_iff_toNat_le] at hd
  exact hd

theorem number_eq_map (i : Nat) :
    number i = (".tmp".toList ++ digits i).map fun c => UInt8.ofNat c.toNat := by
  refine Utf8.encodeChars_of_ascii fun c hm => ?_
  rcases List.mem_append.1 hm with hm | hm
  · have htmp : ∀ c ∈ ".tmp".toList, c.toNat < 0x80 := by simp
    exact htmp c hm
  · have := toNat_of_mem_digits hm
    omega

theorem mem_number {b : UInt8} {i : Nat} (h : b ∈ number i) :
    b ∈ [0x2E, 0x74, 0x6D, 0x70] ∨ 48 ≤ b.toNat ∧ b.toNat ≤ 57 := by
  rw [number_eq_map, List.map_append, List.mem_append] at h
  refine h.imp id fun h => ?_
  obtain ⟨c, hm, rfl⟩ := List.mem_map.1 h
  have := toNat_of_mem_digits hm
  rw [Utf8.toNat_ofNat (by omega)]
  exact this

def firstFree (taken : List Name) : Nat :=
  ((List.range (taken.length + 1)).find? fun i => !taken.contains (number i)).getD 0

theorem number_firstFree_notMem (taken : List Name) : number (firstFree taken) ∉ taken := by
  unfold firstFree
  cases hf : (List.range (taken.length + 1)).find? fun i => !taken.contains (number i) with
  | some i => simpa using List.find?_some hf
  | none =>
    exfalso
    have hsub : (List.range (taken.length + 1)).map number ⊆ taken := by
      intro n hn
      obtain ⟨i, hi, rfl⟩ := List.mem_map.1 hn
      simpa using List.find?_eq_none.1 hf i hi
    have hnd : ((List.range (taken.length + 1)).map number).Nodup :=
      List.Pairwise.map number (fun _ _ hne h => hne (number_injective h)) List.nodup_range
    have hle := hnd.length_le_of_subset hsub
    rw [List.length_map, List.length_range] at hle
    omega

def numbered : Naming where
  pick taken := number (firstFree taken)
  fresh := number_firstFree_notMem
  plain taken := by
    generalize firstFree taken = i
    refine ⟨fun h => ?_, fun h => ?_, rfl⟩
    · rcases mem_number h with h | h
      · revert h
        decide
      · simp [Path.slash] at h
    · rcases mem_number h with h | h
      · revert h
        decide
      · simp at h

end Naming

/-- Where a user's settings for version control are kept, those that go before the others first,
which ignore file they name, and which one it is if they name none. Patterns of all ignore files go
into matchers of one kind. -/
structure IgnoreSettings where
  configs : List Path := []
  named? : Bytes → Option Path := fun _ => none
  standard? : Option Path := none
  limit : PatternLimit := .nesting

structure FileSystem where
  tree : FileTree
  cwd : Location := []
  umask : Nat := 0o022
  naming : Naming := .numbered
  ignoring : IgnoreSettings := {}

namespace FileSystem

def locate (fs : FileSystem) (ending : Ending) (p : Path) : Except FileFault Location :=
  fs.tree.resolve fs.cwd ending p

def look (fs : FileSystem) (ending : Ending) (p : Path) : Except FileFault (Location × Node) := do
  let l ← fs.locate ending p
  match fs.tree.get? l with
  | some n => .ok (l, n)
  | none => .error .notFound

def changeTo (fs : FileSystem) (p : Path) : Except FileFault FileSystem := do
  let (l, n) ← fs.look .follow p
  if n.isDir then .ok { fs with cwd := l } else .error .notDirectory

def stat (fs : FileSystem) (p : Path) : Except FileFault Node := (fs.look .follow p).map (·.2)

def list (fs : FileSystem) (p : Path) : Except FileFault (List Name) := do
  let (l, n) ← fs.look .follow p
  if n.isDir then .ok (fs.tree.names l) else .error .notDirectory

/-- What reading a file gives; nothing if it does not come to an end, at a pipe that nobody need
ever write to or at a device that always has more. -/
def contents (fs : FileSystem) (p : Path) : Except FileFault (Option Bytes) := do
  match ← fs.stat p with
  | .file _ content => .ok (some content)
  | .dir _ => .error .isDirectory
  | .device .null _ => .ok (some [])
  | _ => .ok none

def read (fs : FileSystem) (p : Path) : Except FileFault Bytes := do
  match ← fs.contents p with
  | some content => .ok content
  | none => .error .endless

def newMode (fs : FileSystem) : Nat := 0o666 - (0o666 &&& fs.umask)

def put (fs : FileSystem) (l : Location) (n : Node) : FileSystem :=
  { fs with tree := fs.tree.put l n }

def erase (fs : FileSystem) (l : Location) : FileSystem := { fs with tree := fs.tree.erase l }

/-- Writes a file in place: a new one gets the default mode, an old one keeps its own. -/
def overwrite (fs : FileSystem) (p : Path) (content : Bytes) : Except FileFault FileSystem := do
  let l ← fs.locate .create p
  match fs.tree.get? l with
  | none => .ok (fs.put l (.file fs.newMode content))
  | some (.file mode _) => .ok (fs.put l (.file mode content))
  | some (.device .full _) => if content = [] then .ok fs else .error .noSpace
  | some (.dir _) => .error .isDirectory
  | some (.fifo _) => .error .endless
  | some _ => .ok fs

def fromTop (fs : FileSystem) (p : Path) : Path :=
  if p.isAbsolute then p else (Location.path fs.cwd).join p.bytes

def temporaryPath (fs : FileSystem) (dir : Path) : Path :=
  let taken := match fs.list (fs.fromTop dir) with
    | .ok names => names
    | .error _ => []
  (fs.fromTop dir).join (fs.naming.pick taken)

def makeTemporary (fs : FileSystem) (dir : Path) : Except FileFault (Location × FileSystem) :=
  let p := fs.temporaryPath dir
  match fs.tree.resolveEntry fs.cwd p with
  | .ok l => .ok (l, fs.put l (.file fs.newMode []))
  | .error f => .error (.creating p f)

/-- Moves the file at a location to a path, in place of what stands there; a link there is not
followed. -/
def rename (fs : FileSystem) (old : Location) (p : Path) : Except FileFault FileSystem :=
  match fs.tree.resolveEntry fs.cwd p with
  | .error .nulInName => .error .invalidArgument
  | .error f => .error f
  | .ok l =>
    if p.bytes.getLast? = some Path.slash then .error .notDirectory
    else if fs.tree.isDir l then .error .isDirectory
    else match fs.tree.get? old with
      | some n => .ok ((fs.erase old).put l n)
      | none => .error .notFound

/-- The directory that a file with this path is made in. -/
def directoryOf (p : Path) : Path :=
  match p.parent? with
  | some d => if d.bytes = [] then ⟨[Path.dot]⟩ else d
  | none => ⟨[Path.dot]⟩

/-- What goes wrong in a replacement, and whether it is about the file or its directory. -/
inductive ReplaceFault where
  | inDirectory (dir : Path) (fault : FileFault)
  | atFile (fault : FileFault)
  deriving DecidableEq, Repr

/-- Writes a file beside its path and moves it there, with the mode of what the path leads to.
The file beside it does not outlive a fault. -/
def replace (fs : FileSystem) (p : Path) (content : Bytes) :
    FileSystem × Except ReplaceFault Unit :=
  let dir := directoryOf p
  match fs.makeTemporary dir with
  | .error f => (fs, .error (.inDirectory dir f))
  | .ok (l, fs₁) =>
    let mode := match fs₁.stat p with
      | .ok n => n.mode
      | .error _ => fs.newMode
    let fs₂ := fs₁.put l (.file mode content)
    match fs₂.rename l p with
    | .ok fs₃ => (fs₃, .ok ())
    | .error f => (fs₂.erase l, .error (.atFile f))

end FileSystem

end ResourceManifest
