import Mathlib.Data.List.Basic
import Mathlib.Data.List.Forall2
import ResourceManifest.Manifest
import ResourceManifest.Proofs.Ignore.Silent
import ResourceManifest.Proofs.Manifest.Ignoring
import ResourceManifest.Proofs.Walk.Member

set_option autoImplicit false

namespace ResourceManifest

namespace Walk

variable {fs : FileSystem} {followLinks : Bool} {root : Path}

/-- No entry of a directory that the walk visits has a name that begins with a dot. -/
def Undotted (fs : FileSystem) (followLinks : Bool) (root : Path) : Prop :=
  ∀ v up, Visited fs followLinks Guard.open () root v up → ∀ name n,
    fs.tree.get? (name :: v.location) = some n → name.head? ≠ some Path.dot

theorem Undotted.silent_load (h : Undotted fs followLinks root) {v : Visit Unit}
    {up : List (Visit Unit)} (hv : Visited fs followLinks Guard.open () root v up) :
    (IgnoreLevel.load fs (root.joinAll v.names)).1.Silent := by
  obtain ⟨k, -, hl⟩ := hv.reaches.1.leads_names
  refine (IgnoreLevel.load_of_no_entry hv.reaches.1.bytes_ne_nil hl fun kind => ?_).1
  refine Option.eq_none_iff_forall_ne_some.2 fun n hn => ?_
  exact h v up hv _ n hn kind.head?_entry

theorem Undotted.skips (h : Undotted fs followLinks root) {v : Visit Unit}
    {up : List (Visit Unit)} (hv : Visited fs followLinks Guard.open () root v up)
    {s : IgnoreState} (hs : s.Silent) {name : Name} (hm : name ∈ fs.tree.names v.location)
    (isDir : Bool) : IgnoreState.guard.skips s (v.child root name) isDir = false := by
  obtain ⟨n, hg⟩ := FileTree.mem_names_iff.1 hm
  exact hs.skips hv.reaches.1.bytes_ne_nil (FileTree.isEntryName_of_get? hg) (h v up hv name n hg)

theorem Undotted.endless? (h : Undotted fs followLinks root) {v : Visit Unit}
    {up : List (Visit Unit)} (hv : Visited fs followLinks Guard.open () root v up) {name : Name}
    {n : Node} (hg : fs.tree.get? (name :: v.location) = some n)
    (hk : plainKind fs followLinks ((v :: up).map (Visit.ancestor root)) (v.child root name) n =
      .directory) : IgnoreKind.endless? fs (v.child root name) = none := by
  cases hl : fs.look .follow (v.child root name) with
  | error f =>
    rcases plainKind_eq_directory_iff.1 hk with hd | ⟨-, -, l, d, hl', -⟩
    · have hlink : n.isLink = false := by cases n <;> simp_all [Node.isDir, Node.isLink]
      obtain ⟨hlong, -⟩ := FileSystem.too_long_of_look_join hv.reaches.1 hg hlink hl
      obtain ⟨-, -, -, -, h₀, -⟩ := isEntryName_iff.1 (FileTree.isEntryName_of_get? hg)
      exact IgnoreKind.endless?_of_too_long (Path.nul_notMem_join hv.reaches.1.1 h₀) hlong
    · cases hl.symm.trans hl'
  | ok x =>
    have hv' := Visited.entry hv hg (kind_open.trans hk) rfl hl
    obtain ⟨k, -, hle⟩ := hv'.reaches.1.leads_names
    rw [← child_eq] at hle
    refine IgnoreKind.endless?_of_no_entry (Path.join_bytes_ne_nil hv.reaches.1.bytes_ne_nil) hle
      fun kind => Option.eq_none_iff_forall_ne_some.2 fun d hd => ?_
    exact h _ _ hv' _ d hd kind.head?_entry

theorem Undotted.kind (h : Undotted fs followLinks root) {v : Visit Unit}
    {up : List (Visit Unit)} (hv : Visited fs followLinks Guard.open () root v up) {name : Name}
    {n : Node} (hg : fs.tree.get? (name :: v.location) = some n) :
    kind fs IgnoreState.guard followLinks ((v :: up).map (Visit.ancestor root))
        (v.child root name) n =
      kind fs Guard.open followLinks ((v :: up).map (Visit.ancestor root))
        (v.child root name) n :=
  (kind_eq_plainKind (h.endless? hv hg)).trans kind_open.symm

theorem inside_of_undotted (h : Undotted fs followLinks root) (levels : Nat) {v : Visit Unit}
    {up : List (Visit Unit)} (hv : Visited fs followLinks Guard.open () root v up)
    {s : IgnoreState} (hs : s.Silent) :
    (fs.tree.names v.location).flatMap
      (atEntry fs followLinks IgnoreState.guard
        (found fs followLinks IgnoreState.guard levels ((v :: up).map (Visit.ancestor root)))
        ((v :: up).map (Visit.ancestor root)) s (root.joinAll v.names) v.location) =
      inside fs followLinks Guard.open root levels v up := by
  induction levels generalizing v up s with
  | zero =>
    refine List.flatMap_congr fun name hm => ?_
    obtain ⟨n, hg⟩ := FileTree.mem_names_iff.1 hm
    exact atEntry_congr hg (h.kind hv hg) (h.skips hv hs hm) fun _ _ => rfl
  | succ levels ih =>
    refine List.flatMap_congr fun name hm => ?_
    obtain ⟨n, hg⟩ := FileTree.mem_names_iff.1 hm
    refine atEntry_congr hg (h.kind hv hg) (h.skips hv hs hm) fun hk _ => ?_
    cases hl : fs.look .follow (v.child root name) with
    | error f => rw [found_of_error hl, found_of_error hl]
    | ok r =>
      obtain ⟨l, d⟩ := r
      have hd := (isDir_of_kind hv.reaches.1 hg hk hl).1
      have hv' := Visited.entry hv hg hk rfl hl
      have hload := h.silent_load hv'
      rw [← child_eq] at hload
      have hin := ih hv' (hs.enter hload)
      rw [found_child n.isLink hl hd, found_of_dir hl hd]
      simp only [List.map_cons, Visit.ancestor, child_eq] at hin ⊢
      exact hin

theorem files_of_undotted (h : Undotted fs followLinks root) {s : IgnoreState} (hs : s.Silent) :
    files fs followLinks IgnoreState.guard s root = files fs followLinks Guard.open () root := by
  cases hl : fs.look .follow root with
  | error f =>
    have hstat : fs.stat root = .error f := by
      rw [FileSystem.stat, hl]
      rfl
    simp only [files, hstat]
  | ok r =>
    obtain ⟨r, d⟩ := r
    cases hd : d.isDir with
    | false =>
      have hstat := FileSystem.stat_eq_ok_iff.2 ⟨r, hl⟩
      simp only [files, hstat, hd, Bool.false_eq_true, if_false]
    | true =>
      obtain ⟨hr, hg⟩ := FileSystem.look_follow_eq_ok_iff.1 hl
      obtain ⟨top, hk⟩ := hr.look_keep hg
      have hv : Visited fs followLinks Guard.open () root _ _ := .root hl hd hk
      have hin := inside_of_undotted h pathLimit hv (hs.enter (h.silent_load hv))
      rw [files_of_dir hl hd, files_of_dir hl hd, found_of_dir hl hd]
      exact congrArg (List.map fun x => x.map root.joinAll)
        (hin.trans (found_root top.2.isLink hl hd).symm)

theorem upToEndless_files_open :
    upToEndless (files fs followLinks Guard.open () root) =
      files fs followLinks Guard.open () root :=
  upToEndless_eq_self fun _ hf => by
    obtain ⟨p, hp⟩ := exists_endless?_of_mem_files hf
    cases hp

theorem undotted_of_nodes
    (h : ∀ e ∈ fs.tree.nodes, e.1.head?.any (·.head? == some Path.dot) = false) :
    Undotted fs followLinks root := by
  intro v up hv name n hn hdot
  have hfalse := h _ (FileTree.get?_cons_eq_some_iff.1 hn)
  simp [hdot] at hfalse

end Walk

namespace Manifest

variable {fs : FileSystem} {followLinks : Bool} {root : Path}

/-- The same file, or the same fault, told by the one walk and by the other. -/
def Agree (root : Path) : Except Failure Path → Except Failure Path → Prop
  | .ok p, .ok q => p = q
  | .error f, .error g => ∃ w, f = .walk root w ∧ g = .ignore root (.walk w)
  | _, _ => False

/-- No ignore file and no repository lies in a directory around a root that is a directory, and
there are no rules that hold for every tree, as far as the settings tell, which have an end. -/
structure Unruled (fs : FileSystem) (root : Path) : Prop where
  around : ∀ r mode, fs.look .follow root = .ok (r, .dir mode) → ∀ m ∈ Location.around r,
    ∀ k : IgnoreKind, fs.tree.get? (k.entry :: m) = none
  everywhere : (IgnoreSettings.rules fs).rules = []
  settled : IgnoreSettings.Settled fs

theorem unruled_of_top {t : FileTree} {name : Name} {mode : Nat}
    (hl : ({ tree := t } : FileSystem).look .follow root = .ok ([name], .dir mode))
    (hno : ∀ k : IgnoreKind, t.get? [k.entry] = none) : Unruled { tree := t } root where
  around r mode' h m hm k := by
    cases hl.symm.trans h
    obtain rfl := List.mem_singleton.1 hm
    exact hno k
  everywhere := rfl
  settled := ⟨none, rfl⟩

theorem Unruled.opening (h : Unruled fs root) (hstd : Walk.isStandardInput root = false)
    (hdots : Walk.Undotted fs followLinks root) :
    ∃ s, Walk.opening fs root = ([], some s) ∧ s.Silent := by
  obtain ⟨hs, hfaults, haround⟩ := IgnoreState.silent_atRoot h.around h.everywhere
  refine ⟨_, ?_, hs⟩
  rw [Walk.opening_of_ends hstd h.settled haround
    (IgnoreState.endlessOwn?_eq_none fun r mode hl => ?_), Walk.aroundFaults, hfaults]
  · rfl
  · obtain ⟨v, hv, hnames, hloc⟩ : ∃ v, Walk.Visited fs followLinks Guard.open () root v [] ∧
        v.names = [] ∧ v.location = r := Walk.exists_visited_root hl rfl
    obtain ⟨k, -, hle⟩ := (FileSystem.look_follow_eq_ok_iff.1 hl).1.leads_names
    refine IgnoreKind.endless?_of_no_entry
      (FileSystem.look_follow_eq_ok_iff.1 hl).1.bytes_ne_nil hle
      fun kind => Option.eq_none_iff_forall_ne_some.2 fun n hn => ?_
    exact hdots v [] hv _ n (hloc ▸ hn) kind.head?_entry

/-- Where there is nothing to heed, to heed it makes no difference: the two walks agree at every
step, past all faults. -/
theorem findFiles_agree (hstd : Walk.isStandardInput root = false)
    (hdots : Walk.Undotted fs followLinks root) (haround : Unruled fs root) :
    List.Forall₂ (Agree root) (findFiles fs root followLinks false)
      (findFiles fs root followLinks true) := by
  obtain ⟨s, hopen, hs⟩ := haround.opening hstd hdots
  have hfalse : findFiles fs root followLinks false =
      (Walk.files fs followLinks Guard.open () root).map fun item =>
        item.mapError (Failure.walk root) := by
    simp only [findFiles, Bool.false_eq_true, if_false]
  have htrue : findFiles fs root followLinks true =
      (Walk.files fs followLinks Guard.open () root).map fun item =>
        (item.mapError IgnoreFault.walk).mapError (Failure.ignore root) := by
    simp only [findFiles, if_true, Walk.unignored, hopen, List.map_nil, List.nil_append,
      Walk.files_of_undotted hdots hs, Walk.upToEndless_files_open, List.map_map]
    rfl
  rw [hfalse, htrue, List.forall₂_map_left_iff, List.forall₂_map_right_iff, List.forall₂_same]
  intro item _
  cases item with
  | ok p => exact rfl
  | error w => exact ⟨w, rfl, rfl⟩

/-- A picture in a directory, a link to itself, and one to the directory that it lies in. -/
def tangledTree : FileTree :=
  let d : Name := [0x64]
  (((FileTree.empty.put [d] (.dir 0o755)).put [[0x78, 0x2E, 0x70, 0x6E, 0x67], d]
    (.file 0o644 [])).put [[0x6C], d] (.link ⟨[0x6C]⟩)).put [[0x70], d] (.link ⟨[Path.dot]⟩)

theorem findFiles_agree_past_faults :
    let fs : FileSystem := { tree := tangledTree }
    let root := Path.ofString "d"
    findFiles fs root true false = [.error (.walk root (.file (.ofString "d/l") .tooManyLinks)),
      .error (.walk root (.loop root (.ofString "d/p"))), .ok (.ofString "d/x.png")] ∧
    List.Forall₂ (Agree root) (findFiles fs root true false) (findFiles fs root true true) := by
  intro fs root
  have hl : fs.look .follow root = .ok ([[0x64]], .dir 0o755) := by decide +kernel
  have hno : ∀ k : IgnoreKind, fs.tree.get? [k.entry] = none := fun k => by cases k <;> rfl
  exact ⟨by decide +kernel, findFiles_agree (by decide +kernel)
    (Walk.undotted_of_nodes (by decide +kernel)) (unruled_of_top hl hno)⟩

/-- With a slash behind it the name still stands for the standard input. -/
theorem findFiles_differ_at_standard_input :
    let fs : FileSystem := { tree := dashTree }
    let root := Path.ofString "-/"
    root ≠ Path.ofString "-" ∧ Walk.Undotted fs false root ∧ Unruled fs root ∧
    findFiles fs root false false = [.ok (.ofString "-/x.png")] ∧
    findFiles fs root false true = [] := by
  intro fs root
  have hl : fs.look .follow root = .ok ([[0x2D]], .dir 0o755) := by decide +kernel
  have hno : ∀ k : IgnoreKind, fs.tree.get? [k.entry] = none := fun k => by cases k <;> rfl
  exact ⟨by decide +kernel, Walk.undotted_of_nodes (by decide +kernel), unruled_of_top hl hno,
    by decide +kernel, by decide +kernel⟩

end Manifest

end ResourceManifest
