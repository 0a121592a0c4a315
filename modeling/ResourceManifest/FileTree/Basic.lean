import ResourceManifest.Path

/-!
Directory trees: what stands at each location, a location being the names on the way from it up
to the top. The top is a directory and is not stored. Links are stored as they were written;
nothing here follows them.
-/

set_option autoImplicit false

namespace ResourceManifest

def isEntryName (n : Name) : Bool :=
  n != [] && n != [Path.dot] && n != [Path.dot, Path.dot] && !n.contains Path.slash &&
    !n.contains 0 && n.length ≤ 255

inductive Device where
  /-- Takes whatever is written. -/
  | null
  /-- Takes nothing. -/
  | full
  deriving DecidableEq, Repr

inductive Node where
  | dir (mode : Nat)
  | file (mode : Nat) (content : Bytes)
  | link (target : Path)
  | fifo (mode : Nat)
  | device (kind : Device) (mode : Nat)
  deriving DecidableEq, Repr

namespace Node

def isDir : Node → Bool
  | .dir _ => true
  | _ => false

def isFile : Node → Bool
  | .file _ _ => true
  | _ => false

def isLink : Node → Bool
  | .link _ => true
  | _ => false

/-- The permission bits; a link has none of its own. -/
def mode : Node → Nat
  | .dir m => m
  | .file m _ => m
  | .link _ => 0o777
  | .fifo m => m
  | .device _ m => m

end Node

/-- The names on the way from a place up to the top, the place's own name first. -/
abbrev Location := List Name

namespace Location

def path (l : Location) : Path :=
  if l = [] then ⟨[Path.slash]⟩ else ⟨l.reverse.flatMap fun n => Path.slash :: n⟩

def around : Location → List Location
  | [] => []
  | _ :: parent => parent :: around parent

def nameIn? (parent : Location) : Location → Option Name
  | n :: p => if p = parent then some n else none
  | [] => none

end Location

/-- A finite tree of directories: each location is stored at most once, each name is one that an
entry may have, and everything stands in a directory. -/
structure FileTree where
  nodes : List (Location × Node)
  nodup : (nodes.map (·.1)).Nodup
  named : ∀ e ∈ nodes, e.1 ≠ [] ∧ e.1.all isEntryName = true
  rooted : ∀ e ∈ nodes, e.1.tail = [] ∨ ∃ mode, (e.1.tail, Node.dir mode) ∈ nodes

def insertName (n : Name) : List Name → List Name
  | [] => [n]
  | m :: ms => if n ≤ m then n :: m :: ms else m :: insertName n ms

def sortNames (ns : List Name) : List Name := ns.foldr insertName []

namespace FileTree

def empty : FileTree := ⟨[], by simp, by simp, by simp⟩

instance : Inhabited FileTree := ⟨empty⟩

def get? (t : FileTree) (l : Location) : Option Node :=
  if l = [] then some (.dir 0o755) else t.nodes.lookup l

def isDir (t : FileTree) (l : Location) : Bool := (t.get? l).any Node.isDir

/-- The names in a directory, in the order of their bytes. -/
def names (t : FileTree) (parent : Location) : List Name :=
  sortNames (t.nodes.filterMap fun e => Location.nameIn? parent e.1)

def isEmptyAt (t : FileTree) (l : Location) : Bool := t.nodes.all fun e => e.1.tail != l

def erase (t : FileTree) (l : Location) : FileTree where
  nodes := t.nodes.filter fun e => !l.isSuffixOf e.1
  nodup := t.nodup.sublist (List.filter_sublist.map _)
  named e h := t.named e (List.mem_filter.1 h).1
  rooted e h := by
    obtain ⟨hm, hs⟩ := List.mem_filter.1 h
    refine (t.rooted e hm).imp_right fun ⟨mode, hp⟩ => ⟨mode, List.mem_filter.2 ⟨hp, ?_⟩⟩
    simp only [Bool.not_eq_true', Bool.eq_false_iff, ne_eq, List.isSuffixOf_iff_suffix] at hs ⊢
    exact fun hl => hs (hl.trans e.1.tail_suffix)

theorem mem_of_lookup_eq_some {l : Location} {n : Node} {nodes : List (Location × Node)}
    (h : nodes.lookup l = some n) : (l, n) ∈ nodes := by
  induction nodes with
  | nil => simp at h
  | cons e es ih =>
    obtain ⟨l', n'⟩ := e
    by_cases hl : l = l'
    · subst hl
      simp only [List.lookup_cons, beq_self_eq_true, Option.some.injEq] at h
      simp [h]
    · simp only [List.lookup_cons, beq_false_of_ne hl] at h
      exact List.mem_cons_of_mem _ (ih h)

theorem exists_dir_of_isDir {t : FileTree} {l : Location} (h : t.isDir l = true) :
    l = [] ∨ ∃ mode, (l, Node.dir mode) ∈ t.nodes := by
  by_cases hl : l = []
  · exact .inl hl
  · obtain ⟨n, hn, hd⟩ := (Option.any_eq_true _ _).1 h
    simp only [get?, hl, if_false] at hn
    cases n with
    | dir mode => exact .inr ⟨mode, mem_of_lookup_eq_some hn⟩
    | _ => simp [Node.isDir] at hd

/-- Puts a node at a location in place of what stood there. The top stays, names that no entry may
have are refused, and so is a place outside every directory or that of a directory in use. -/
def put (t : FileTree) (l : Location) (n : Node) : FileTree :=
  if h : (l ≠ [] ∧ l.all isEntryName = true) ∧
      t.isDir l.tail = true ∧ (n.isDir = true ∨ t.isEmptyAt l = true) then
    { nodes := (l, n) :: t.nodes.filter (·.1 != l)
      nodup := by
        rw [List.map_cons, List.nodup_cons]
        refine ⟨?_, t.nodup.sublist (List.filter_sublist.map _)⟩
        intro hm
        obtain ⟨e, he, hl⟩ := List.mem_map.1 hm
        have := (List.mem_filter.1 he).2
        simp [hl] at this
      named := by
        intro e he
        rcases List.mem_cons.1 he with rfl | he
        · exact h.1
        · exact t.named e (List.mem_filter.1 he).1
      rooted := by
        obtain ⟨⟨hne, _⟩, hdir, hkeep⟩ := h
        have keeps : ∀ {p : Location} {mode : Nat}, p ≠ l → (p, Node.dir mode) ∈ t.nodes →
            (p, Node.dir mode) ∈ (l, n) :: t.nodes.filter (·.1 != l) := fun hp hm =>
          List.mem_cons_of_mem _ (List.mem_filter.2 ⟨hm, by simpa using hp⟩)
        intro e he
        rcases List.mem_cons.1 he with rfl | he
        · refine (exists_dir_of_isDir hdir).imp_right fun ⟨mode, hm⟩ => ⟨mode, keeps ?_ hm⟩
          cases l <;> simp_all
        · obtain ⟨hm, hl⟩ := List.mem_filter.1 he
          refine (t.rooted e hm).imp_right fun ⟨mode, hp⟩ => ?_
          by_cases ht : e.1.tail = l
          · cases n with
            | dir mode => exact ⟨mode, by simp [ht]⟩
            | _ =>
              have hall : t.isEmptyAt l = true := hkeep.resolve_left (by simp [Node.isDir])
              exact absurd ht (by simpa using List.all_eq_true.1 hall e hm)
          · exact ⟨mode, keeps ht hp⟩ }
  else t

end FileTree

end ResourceManifest
