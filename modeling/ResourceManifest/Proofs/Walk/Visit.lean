import ResourceManifest.Proofs.Walk.Found

set_option autoImplicit false

namespace ResourceManifest.Walk

section Kind

variable {σ : Type} {fs : FileSystem} {guard : Guard σ} {followLinks : Bool}
  {above : List Ancestor} {p : Path} {n : Node}

theorem exists_look_iff {l : Location} {d : Node} {Q : Location → Node → Prop}
    (h : fs.look .follow p = .ok (l, d)) :
    (∃ l' d', fs.look .follow p = .ok (l', d') ∧ Q l' d') ↔ Q l d := by
  constructor
  · intro hx
    obtain ⟨l', d', h', hq⟩ := hx
    cases h.symm.trans h'
    exact hq
  · exact fun hq => ⟨l, d, h, hq⟩

theorem find?_location_eq_none_iff {l : Location} :
    above.find? (·.location = l) = none ↔ ∀ a ∈ above, a.location ≠ l := by
  simp

theorem plainKind_eq_directory_iff : plainKind fs followLinks above p n = .directory ↔
    n.isDir = true ∨ n.isLink = true ∧ followLinks = true ∧ ∃ l d,
      fs.look .follow p = .ok (l, d) ∧ d.isDir = true ∧ ∀ a ∈ above, a.location ≠ l := by
  cases n with
  | link target =>
    cases h : fs.look .follow p with
    | error f => cases followLinks <;> simp [plainKind, h, Node.isDir]
    | ok r =>
      obtain ⟨l, d⟩ := r
      rw [← h, exists_look_iff h, ← find?_location_eq_none_iff]
      cases hf : above.find? (·.location = l) <;> cases d <;> cases followLinks <;>
        simp [plainKind, h, hf, Node.isDir, Node.isFile, Node.isLink]
  | _ => simp [plainKind, Node.isDir, Node.isLink]

theorem plainKind_eq_regular_iff : plainKind fs followLinks above p n = .regular ↔
    n.isFile = true ∨ n.isLink = true ∧ ∃ l d,
      fs.look .follow p = .ok (l, d) ∧ d.isFile = true := by
  cases n with
  | link target =>
    cases h : fs.look .follow p with
    | error f => cases followLinks <;> simp [plainKind, h, Node.isFile]
    | ok r =>
      obtain ⟨l, d⟩ := r
      rw [← h, exists_look_iff h]
      cases hf : above.find? (·.location = l) <;> cases d <;> cases followLinks <;>
        simp [plainKind, h, hf, Node.isDir, Node.isFile, Node.isLink]
  | _ => simp [plainKind, Node.isFile, Node.isLink]

theorem plainKind_eq_broken_iff {f : WalkFault} : plainKind fs followLinks above p n = .broken f ↔
    n.isLink = true ∧ followLinks = true ∧
      ((∃ e, fs.look .follow p = .error e ∧ .file p e = f) ∨
        ∃ l d, fs.look .follow p = .ok (l, d) ∧ d.isDir = true ∧
          ∃ a, above.find? (·.location = l) = some a ∧ .loop a.path p = f) := by
  cases n with
  | link target =>
    cases h : fs.look .follow p with
    | error e => cases followLinks <;> simp [plainKind, h, Node.isLink]
    | ok r =>
      obtain ⟨l, d⟩ := r
      rw [← h, exists_look_iff h]
      cases hf : above.find? (·.location = l) <;> cases d <;> cases followLinks <;>
        simp [plainKind, h, hf, Node.isDir, Node.isFile, Node.isLink]
  | _ => simp [plainKind, Node.isLink]

theorem kind_eq_directory_iff : kind fs guard followLinks above p n = .directory ↔
    plainKind fs followLinks above p n = .directory ∧ guard.endless? fs p = none := by
  cases hk : plainKind fs followLinks above p n with
  | directory => cases he : guard.endless? fs p <;> simp [kind, hk, he]
  | _ => simp [kind, hk]

theorem kind_eq_regular_iff : kind fs guard followLinks above p n = .regular ↔
    n.isFile = true ∨ n.isLink = true ∧ ∃ l d,
      fs.look .follow p = .ok (l, d) ∧ d.isFile = true := by
  have hplain : plainKind fs followLinks above p n = .regular ↔ _ := plainKind_eq_regular_iff
  rw [← hplain]
  cases hk : plainKind fs followLinks above p n with
  | directory => cases he : guard.endless? fs p <;> simp [kind, hk, he]
  | _ => simp [kind, hk]

theorem kind_eq_broken_iff {f : WalkFault} : kind fs guard followLinks above p n = .broken f ↔
    plainKind fs followLinks above p n = .broken f ∨
      plainKind fs followLinks above p n = .directory ∧
        ∃ file, guard.endless? fs p = some file ∧ .endless file = f := by
  cases hk : plainKind fs followLinks above p n with
  | directory => cases he : guard.endless? fs p <;> simp [kind, hk, he]
  | _ => simp [kind, hk]

theorem kind_eq_plainKind
    (h : plainKind fs followLinks above p n = .directory → guard.endless? fs p = none) :
    kind fs guard followLinks above p n = plainKind fs followLinks above p n := by
  cases hk : plainKind fs followLinks above p n with
  | directory => simp [kind, hk, h hk]
  | _ => simp [kind, hk]

@[simp]
theorem kind_open : kind fs Guard.open followLinks above p n = plainKind fs followLinks above p n :=
  kind_eq_plainKind fun _ => rfl

end Kind

/-- A directory as a walk has entered it: the names that lead to it from the root, whether the last
of them is a link, and what the guard knows there. -/
structure Visit (σ : Type) where
  names : List Name
  location : Location
  viaLink : Bool
  known : σ

def Visit.ancestor {σ : Type} (root : Path) (v : Visit σ) : Ancestor :=
  ⟨root.joinAll v.names, v.location⟩

abbrev Visit.child {σ : Type} (root : Path) (v : Visit σ) (name : Name) : Path :=
  (root.joinAll v.names).join name

section Visited

variable {σ : Type}

/-- The directory that a walk is in, and those around it as they were entered, nearest first. -/
inductive Visited (fs : FileSystem) (followLinks : Bool) (guard : Guard σ) (s : σ)
    (root : Path) : Visit σ → List (Visit σ) → Prop where
  | root {r : Location} {d : Node} {top : Location × Node} :
      fs.look .follow root = .ok (r, d) → d.isDir = true → fs.look .keep root = .ok top →
      Visited fs followLinks guard s root ⟨[], r, top.2.isLink, guard.enter fs s root⟩ []
  | entry {v : Visit σ} {up : List (Visit σ)} {name : Name} {n d : Node} {l : Location} :
      Visited fs followLinks guard s root v up →
      fs.tree.get? (name :: v.location) = some n →
      kind fs guard followLinks ((v :: up).map (Visit.ancestor root)) (v.child root name) n =
        .directory →
      guard.skips v.known (v.child root name) true = false →
      fs.look .follow (v.child root name) = .ok (l, d) →
      Visited fs followLinks guard s root
        ⟨v.names ++ [name], l, n.isLink, guard.enter fs v.known (v.child root name)⟩ (v :: up)

/-- What there is to find at an entry of the directory that a walk is in. -/
inductive Emits (fs : FileSystem) (followLinks : Bool) (guard : Guard σ) (root : Path)
    (v : Visit σ) (up : List (Visit σ)) : Except WalkFault (List Name) → Prop where
  | broken {name : Name} {n : Node} {f : WalkFault} :
      fs.tree.get? (name :: v.location) = some n →
      kind fs guard followLinks ((v :: up).map (Visit.ancestor root)) (v.child root name) n =
        .broken f →
      Emits fs followLinks guard root v up (.error f)
  | closed {name : Name} {n : Node} {f : FileFault} :
      fs.tree.get? (name :: v.location) = some n →
      kind fs guard followLinks ((v :: up).map (Visit.ancestor root)) (v.child root name) n =
        .directory →
      guard.skips v.known (v.child root name) true = false →
      fs.look .follow (v.child root name) = .error f →
      Emits fs followLinks guard root v up (.error (.file (v.child root name) f))
  | regular {name : Name} {n : Node} :
      fs.tree.get? (name :: v.location) = some n →
      kind fs guard followLinks ((v :: up).map (Visit.ancestor root)) (v.child root name) n =
        .regular →
      guard.skips v.known (v.child root name) false = false →
      Emits fs followLinks guard root v up (.ok (v.names ++ [name]))

variable {fs : FileSystem} {followLinks : Bool} {guard : Guard σ} {s : σ} {root : Path}

theorem child_eq (v : Visit σ) (name : Name) :
    v.child root name = root.joinAll (v.names ++ [name]) := (Path.joinAll_snoc _ _ _).symm

theorem isDir_of_kind {p : Path} {here l : Location} {name : Name} {n d : Node}
    {above : List Ancestor} (hp : fs.Reaches p here)
    (hg : fs.tree.get? (name :: here) = some n)
    (hk : kind fs guard followLinks above (p.join name) n = .directory)
    (h : fs.look .follow (p.join name) = .ok (l, d)) :
    d.isDir = true ∧ (n.isLink = false → l = name :: here) := by
  obtain ⟨hr, hd⟩ := FileSystem.look_follow_eq_ok_iff.1 h
  have hl : n.isLink = false → l = name :: here := by
    intro hn
    obtain ⟨k, -, hle⟩ := hp.leads_of_join (FileTree.isEntryName_of_get? hg) hr
    exact (hle.deterministic (Leads.of_get? hg hn)).1
  refine ⟨?_, hl⟩
  rcases plainKind_eq_directory_iff.1 (kind_eq_directory_iff.1 hk).1 with
    hn | ⟨-, -, l', d', h', hd', -⟩
  · have hnl : n.isLink = false := by
      cases n with
      | dir mode => rfl
      | _ => simp [Node.isDir] at hn
    rw [hl hnl, hg] at hd
    rwa [← Option.some.inj hd]
  · cases h.symm.trans h'
    exact hd'

theorem exists_visited_root {r : Location} {d : Node} (h : fs.look .follow root = .ok (r, d))
    (hd : d.isDir = true) : ∃ v, Visited fs followLinks guard s root v [] ∧
      v.names = [] ∧ v.location = r := by
  obtain ⟨hr, hg⟩ := FileSystem.look_follow_eq_ok_iff.1 h
  obtain ⟨top, hk⟩ := hr.look_keep hg
  exact ⟨_, .root h hd hk, rfl, rfl⟩

namespace Visited

variable {v w : Visit σ} {up : List (Visit σ)}

theorem tail (h : Visited fs followLinks guard s root v (w :: up)) :
    Visited fs followLinks guard s root w up := by
  cases h with
  | entry h _ _ _ _ => exact h

theorem reaches (h : Visited fs followLinks guard s root v up) :
    fs.Reaches (root.joinAll v.names) v.location ∧ fs.tree.isDir v.location = true := by
  induction h with
  | @root r d top h hd _ =>
    obtain ⟨hr, hg⟩ := FileSystem.look_follow_eq_ok_iff.1 h
    refine ⟨hr, ?_⟩
    simp [FileTree.isDir, hg, hd]
  | @entry v up name n d l _ hg hk _ hl ih =>
    have hd := (isDir_of_kind ih.1 hg hk hl).1
    obtain ⟨hr, hgl⟩ := FileSystem.look_follow_eq_ok_iff.1 hl
    refine ⟨child_eq v name ▸ hr, ?_⟩
    simp [FileTree.isDir, hgl, hd]

theorem exists_get? (h : Visited fs followLinks guard s root v up) :
    ∀ n ∈ v.names, ∃ l d, fs.tree.get? (n :: l) = some d := by
  induction h with
  | root _ _ _ => simp
  | entry _ hg _ _ _ ih =>
    intro m hm
    rcases List.mem_append.1 hm with hm | hm
    · exact ih m hm
    · obtain rfl := List.mem_singleton.1 hm
      exact ⟨_, _, hg⟩

theorem isEntryName (h : Visited fs followLinks guard s root v up) :
    ∀ n ∈ v.names, isEntryName n = true := by
  intro n hn
  obtain ⟨l, d, hg⟩ := h.exists_get? n hn
  exact FileTree.isEntryName_of_get? hg

theorem length_names (h : Visited fs followLinks guard s root v up) :
    v.names.length = up.length := by
  induction h with
  | root _ _ _ => rfl
  | entry _ _ _ _ _ ih => simp [ih]

theorem length_lt (h : Visited fs followLinks guard s root v up) :
    root.bytes.length + up.length < pathLimit := by
  have hlt := h.reaches.1.length_lt
  have hle := Path.length_joinAll (p := root) h.isEntryName
  have hn := h.length_names
  omega

end Visited

end Visited

end ResourceManifest.Walk
