import ResourceManifest.Proofs.Ignore.Within
import ResourceManifest.Proofs.Manifest.Ignoring
import ResourceManifest.Proofs.Manifest.Plain
import ResourceManifest.Proofs.Path.EntryText
import ResourceManifest.Proofs.Walk.Within

set_option autoImplicit false

namespace ResourceManifest

variable {fs : FileSystem} {root : Path} {r l : Location} {ds : List Name}

namespace RealDir

theorem location (h : RealDir fs.tree r ds l) : l = ds.reverse ++ r := by
  induction h with
  | root => rfl
  | sub _ _ ih => simp [ih]

theorem exists_get? (h : RealDir fs.tree r ds l) :
    ∀ d ∈ ds, ∃ l n, fs.tree.get? (d :: l) = some n := by
  induction h with
  | root => simp
  | sub _ hg ih =>
    intro d hd
    rcases List.mem_append.1 hd with hd | hd
    · exact ih d hd
    · rw [List.mem_singleton.1 hd]
      exact ⟨_, _, hg⟩

theorem isEntryName (h : RealDir fs.tree r ds l) : ∀ d ∈ ds, isEntryName d = true := by
  intro d hd
  obtain ⟨l, n, hg⟩ := h.exists_get? d hd
  exact FileTree.isEntryName_of_get? hg

theorem of_prefix {ns : List Name} (h : RealDir fs.tree r ds l) (hns : ns <+: ds) :
    RealDir fs.tree r ns (ns.reverse ++ r) := by
  induction h with
  | root =>
    obtain rfl := List.prefix_nil.1 hns
    exact .root
  | sub h hg ih =>
    rcases List.prefix_concat_iff.1 hns with rfl | hns
    · obtain rfl := h.location
      rw [List.reverse_concat]
      exact .sub h hg
    · exact ih hns

theorem reaches (h : RealDir fs.tree r ds l) (hr : fs.Reaches root r)
    (hlen : (root.joinAll ds).bytes.length < pathLimit) : fs.Reaches (root.joinAll ds) l := by
  induction h with
  | root => exact hr
  | sub h hg ih =>
    rw [Path.joinAll_snoc] at hlen ⊢
    exact (ih (Nat.lt_of_le_of_lt (Nat.le_of_add_right_le Path.length_join) hlen)).join hg rfl hlen

theorem isDir (h : RealDir fs.tree r ds l) (hr : fs.tree.isDir r = true) :
    fs.tree.isDir l = true := by
  cases h with
  | root => exact hr
  | sub _ hg => exact FileTree.isDir_iff.2 ⟨_, hg⟩

end RealDir

/-- The walk of the root, which is at `r`, comes to the directory that the names lead to: the root
is not the standard input, and neither the directory nor one on the way to it is skipped. -/
def ComesTo (fs : FileSystem) (root : Path) (r : Location) (ds : List Name) : Prop :=
  Walk.isStandardInput root = false ∧
    ∀ ns, ns <+: ds → ns ≠ [] → isSkipped fs root r true ns = false

/-- Every name in the tree is valid as text. -/
def NamesValid (t : FileTree) : Prop :=
  ∀ name l n, t.get? (name :: l) = some n → (Utf8.decode? name).isSome = true

theorem length_lt_of_file {p : Path} {k : IgnoreKind}
    (h : (IgnoreKind.file p k).bytes.length < pathLimit) : p.bytes.length < pathLimit := by
  rw [k.file_eq_join] at h
  exact Nat.lt_of_le_of_lt (Nat.le_of_add_right_le Path.length_join) h

theorem readAlong_of_unlinked (hr : fs.Reaches root r) (hdir : fs.tree.isDir r = true)
    (hds : RealDir fs.tree r ds l)
    (hways : ∀ ns, ns <+: ds → ns ≠ ds → Unlinked fs.tree (ns.reverse ++ r) ∧
      ∀ k, (IgnoreKind.file (root.joinAll ns) k).bytes.length < pathLimit ∧
        (IgnoreKind.file (Location.path (ns.reverse ++ r)) k).bytes.length < pathLimit) :
    ReadAlong fs root r ds := by
  intro ns hns hne
  obtain ⟨hun, hlen⟩ := hways ns hns hne
  have hreal := hds.of_prefix hns
  have hpath := FileSystem.reaches_path (hreal.isDir hdir) (length_lt_of_file (hlen .ignore).2)
  exact readsAlike_of_unlinked (hreal.reaches hr (length_lt_of_file (hlen .ignore).1)) hpath hun
    (fun k => (hlen k).1) fun k => (hlen k).2

namespace IgnoreState

variable {mode : Nat} {ns : List Name} {n : Name}

theorem enter_atRoot : enter fs (atRoot fs root).1 root = along fs (atRoot fs root).1 [] :=
  enter_root rfl

theorem enter_along_atRoot :
    enter fs (along fs (atRoot fs root).1 ns) (root.joinAll (ns ++ [n])) =
      along fs (atRoot fs root).1 (ns ++ [n]) :=
  enter_along

theorem skips_along_atRoot (isDir : Bool) (hroot : RuleFile.Plain root)
    (h : fs.look .follow root = .ok (r, .dir mode))
    (hns : ∀ m ∈ ns ++ [n], isEntryName m = true) :
    skips (along fs (atRoot fs root).1 ns) (root.joinAll (ns ++ [n])) isDir =
      isSkipped fs root r isDir (ns ++ [n]) := by
  have hg := (FileSystem.look_follow_eq_ok_iff.1 h).2
  have hr := FileTree.isEntryName_of_isDir (FileTree.isDir_iff.2 ⟨mode, hg⟩)
  exact skips_along hroot (knows_atRoot h) hr hns

/-- What is known in a directory below the one that `ds` lead to, on the walk from `root` and on
the walk that begins there. -/
def KnownWithin (fs : FileSystem) (root : Path) (ds : List Name) (p : Path)
    (k k' : IgnoreState) : Prop :=
  ∃ ms, (∀ m ∈ ms, isEntryName m = true) ∧ p = root.joinAll (ds ++ ms) ∧
    k = along fs (atRoot fs root).1 (ds ++ ms) ∧
    k' = along fs (atRoot fs (root.joinAll ds)).1 ms

theorem skipAlike_knownWithin {mode' : Nat} (hroot : RuleFile.Plain root)
    (h : fs.look .follow root = .ok (r, .dir mode))
    (h' : fs.look .follow (root.joinAll ds) = .ok (ds.reverse ++ r, .dir mode'))
    (hds : ∀ d ∈ ds, isEntryName d = true) (hread : ReadAlong fs root r ds)
    (hlen : ds ≠ [] → (Location.path (ds.reverse ++ r)).bytes.length < pathLimit) :
    Walk.SkipAlike guard fs (KnownWithin fs root ds) := by
  rintro p k k' ⟨ms, hms, rfl, rfl, rfl⟩ name hname
  have hbelow : ∀ m ∈ ms ++ [name], isEntryName m = true :=
    List.forall_mem_append.2 ⟨hms, by simpa using hname⟩
  have hall : ∀ m ∈ ds ++ ms ++ [name], isEntryName m = true := by
    rw [List.append_assoc]
    exact List.forall_mem_append.2 ⟨hds, hbelow⟩
  have hpath : (root.joinAll (ds ++ ms)).join name = (root.joinAll ds).joinAll (ms ++ [name]) := by
    rw [← Path.joinAll_snoc, List.append_assoc, Path.joinAll_append]
  refine ⟨fun isDir => ?_, ms ++ [name], hbelow, ?_, ?_, ?_⟩
  · -- What is said of the entry from the root is what is said of it from the directory.
    have hfirst := skips_along_atRoot isDir hroot h hall
    have hsecond := skips_along_atRoot isDir (hroot.joinAll hds) h' hbelow
    rw [List.append_assoc, isSkipped_append hread hlen (by simp), ← hsecond, ← List.append_assoc,
      Path.joinAll_snoc, hpath] at hfirst
    rw [hpath]
    exact hfirst.symm
  · rw [← Path.joinAll_snoc, List.append_assoc]
  · rw [← Path.joinAll_snoc, ← List.append_assoc]
    exact enter_along_atRoot
  · rw [hpath]
    exact enter_along_atRoot

end IgnoreState

namespace Walk

variable {σ : Type} {followLinks : Bool} {guard : Guard σ} {s : σ} {mode : Nat}
  {names : List (List Name)}

/-- What a walk without faults finds in a real directory to which nothing bars the way. The guard
knows `known` of the names in the directory that they lead to. -/
theorem found_of_realDir (known : List Name → σ) (h : fs.look .follow root = .ok (r, .dir mode))
    (hroot : guard.enter fs s root = known [])
    (hentry : ∀ ns n, guard.enter fs (known ns) (root.joinAll (ns ++ [n])) = known (ns ++ [n]))
    (hf : found fs followLinks guard (pathLimit + 1) [] s root = names.map .ok)
    (hds : RealDir fs.tree r ds l)
    (hopen : ∀ ns n, ns ++ [n] <+: ds →
      guard.skips (known ns) (root.joinAll (ns ++ [n])) true = false) :
    ∃ levels above t mode', pathLimit ≤ (root.joinAll ds).bytes.length + levels ∧
      guard.enter fs t (root.joinAll ds) = known ds ∧
      fs.look .follow (root.joinAll ds) = .ok (l, .dir mode') ∧
      found fs followLinks guard (levels + 1) above t (root.joinAll ds) =
        (names.filterMap (after? ds)).map .ok := by
  induction hds with
  | root => exact ⟨pathLimit, [], s, mode, by omega, hroot, h, by simpa [after?] using hf⟩
  | @sub ds l name mode' _ hg ih =>
    obtain ⟨levels, above, t, m, hlev, ht, hl, hin⟩ :=
      ih fun ns n hn => hopen ns n (hn.trans (List.prefix_append ds [name]))
    have hr := (FileSystem.look_follow_eq_ok_iff.1 hl).1
    have hlt := hr.length_lt
    obtain ⟨levels, rfl⟩ : ∃ k, levels = k + 1 := ⟨levels - 1, by omega⟩
    have hlen := Path.length_join (p := root.joinAll ds) (n := name)
    have hpos := List.length_pos_iff.2 (isEntryName_iff.1 (FileTree.isEntryName_of_get? hg)).1
    have hs : guard.skips (guard.enter fs t (root.joinAll ds)) ((root.joinAll ds).join name) true =
        false := by
      rw [ht, ← Path.joinAll_snoc]
      exact hopen ds name (List.prefix_refl _)
    have hchild := found_entry hl rfl hg hs hin
    obtain ⟨l', d, hl', hd⟩ := look_of_found (fun w hw => by
      rw [hchild] at hw
      simp at hw)
    have hk : kind fs Guard.open followLinks [] ((root.joinAll ds).join name) (.dir mode') =
        .directory := rfl
    obtain rfl := (isDir_of_kind hr hg hk hl').2 rfl
    obtain ⟨-, hg'⟩ := FileSystem.look_follow_eq_ok_iff.1 hl'
    obtain rfl := Option.some.inj (hg.symm.trans hg')
    rw [Path.joinAll_snoc]
    refine ⟨levels, ⟨root.joinAll ds, l⟩ :: above, guard.enter fs t (root.joinAll ds), mode',
      by omega, ?_, hl', ?_⟩
    · rw [ht, ← Path.joinAll_snoc]
      exact hentry ds name
    · rw [hchild, List.filterMap_filterMap]
      congr 2
      funext ns
      exact (after?_append ds [name] ns).symm

theorem found_open_within (h : fs.look .follow root = .ok (r, .dir mode))
    (hf : found fs followLinks Guard.open (pathLimit + 1) [] () root = names.map .ok)
    (hds : RealDir fs.tree r ds l) :
    (∃ mode', fs.look .follow (root.joinAll ds) = .ok (l, .dir mode')) ∧
      found fs followLinks Guard.open (pathLimit + 1) [] () (root.joinAll ds) =
        (names.filterMap (after? ds)).map .ok := by
  obtain ⟨levels, above, t, mode', hlev, -, hl, hin⟩ :=
    found_of_realDir (fun _ => ()) h rfl (fun _ _ => rfl) hf hds fun _ _ _ => rfl
  have hopen : SkipAlike Guard.open fs fun _ _ _ => True :=
    fun _ _ _ _ _ _ => ⟨fun _ => rfl, trivial⟩
  refine ⟨⟨mode', hl⟩, ?_⟩
  rw [← hin]
  exact found_eq hopen trivial (by simp) hlev (by omega) (by simp [hin])

theorem found_ignoring_within
    (hroot : root = ⟨[Path.dot]⟩ ∨ Path.Component.here ∉ root.components)
    (h : fs.look .follow root = .ok (r, .dir mode))
    (hf : found fs followLinks IgnoreState.guard (pathLimit + 1) []
      (IgnoreState.atRoot fs root).1 root = names.map .ok)
    (hds : RealDir fs.tree r ds l) (hcomes : ComesTo fs root r ds)
    (hread : ReadAlong fs root r ds)
    (hlen : ds ≠ [] → (Location.path l).bytes.length < pathLimit) :
    (∃ mode', fs.look .follow (root.joinAll ds) = .ok (l, .dir mode')) ∧
      found fs followLinks IgnoreState.guard (pathLimit + 1) []
          (IgnoreState.atRoot fs (root.joinAll ds)).1 (root.joinAll ds) =
        (names.filterMap (after? ds)).map .ok := by
  have hplain := RuleFile.Plain.of_reaches (FileSystem.look_follow_eq_ok_iff.1 h).1 hroot
  have hnames := hds.isEntryName
  have hopen : ∀ ns n, ns ++ [n] <+: ds →
      IgnoreState.guard.skips ((IgnoreState.atRoot fs root).1.along fs ns)
        (root.joinAll (ns ++ [n])) true = false := by
    intro ns n hn
    exact (IgnoreState.skips_along_atRoot true hplain h fun m hm => hnames m (hn.subset hm)).trans
      (hcomes.2 _ hn (by simp))
  obtain ⟨levels, above, t, mode', hlev, ht, hl, hin⟩ :=
    found_of_realDir ((IgnoreState.atRoot fs root).1.along fs) h IgnoreState.enter_atRoot
      (fun _ _ => IgnoreState.enter_along_atRoot) hf hds hopen
  obtain rfl := hds.location
  have hwithin : IgnoreState.KnownWithin fs root ds (root.joinAll ds)
      (IgnoreState.guard.enter fs t (root.joinAll ds))
      (IgnoreState.guard.enter fs (IgnoreState.atRoot fs (root.joinAll ds)).1 (root.joinAll ds)) :=
    ⟨[], by simp, by simp, by simpa using ht, IgnoreState.enter_atRoot⟩
  refine ⟨⟨mode', hl⟩, ?_⟩
  rw [← hin]
  exact found_eq (IgnoreState.skipAlike_knownWithin hplain h hl hnames hread hlen) hwithin (by simp)
    hlev (by omega) (by simp [hin])

theorem isStandardInput_joinAll (hr : fs.Reaches root r) (hds : ∀ d ∈ ds, isEntryName d = true)
    (h : isStandardInput root = false) : isStandardInput (root.joinAll ds) = false := by
  cases ds with
  | nil => exact h
  | cons d ds =>
    refine decide_eq_false fun hc => ?_
    have hlen := congrArg List.length hc
    have hpos := List.length_pos_iff.2 (Path.components_ne_nil hr.bytes_ne_nil)
    rw [Path.components_joinAll hr.bytes_ne_nil (Path.isSegment_of_isEntryName hds),
      List.length_append, List.length_map] at hlen
    simp only [List.length_cons, List.length_nil] at hlen
    omega

end Walk

namespace Manifest

variable {job : Job} {mode : Nat} {names : List (List Name)}

theorem accepted_append (allowed : List String) (ms : List Name) {ns : List Name} (hne : ns ≠ []) :
    accepted allowed (ms ++ ns) = accepted allowed ns := by
  rw [accepted, accepted, List.getLast?_append_of_ne_nil ms hne]

theorem filterMap_entryBelow {allowed : List String}
    (hv : ∀ ns ∈ names, ∀ n ∈ ns, (Utf8.decode? n).isSome = true)
    (hn : ∀ ns ∈ names, ns ≠ [] ∧ ∀ n ∈ ns, isEntryName n = true)
    (hvd : ∀ d ∈ ds, (Utf8.decode? d).isSome = true) (hd : ∀ d ∈ ds, isEntryName d = true)
    (hfile : ds ∉ names) :
    ((names.filter (accepted allowed)).map Path.entryText).filterMap (Path.entryBelow ds) =
      ((names.filterMap (after? ds)).filter (accepted allowed)).map Path.entryText := by
  induction names with
  | nil => rfl
  | cons ns names ih =>
    have hi := ih (fun ms hm => hv ms (by simp [hm])) (fun ms hm => hn ms (by simp [hm]))
      fun hm => hfile (by simp [hm])
    obtain ⟨hne, hns⟩ := hn ns (by simp)
    have hnd : ns ≠ ds := fun h => hfile (by simp [h])
    have hslash : ∀ m ∈ ds ++ ns, Path.slash ∉ m := fun m hm =>
      (isEntryName_iff.1 (List.forall_mem_append.2 ⟨hd, hns⟩ m hm)).2.2.2.1
    have hbelow := Path.entryBelow_entryText
      (List.forall_mem_append.2 ⟨hvd, hv ns (by simp)⟩) hslash hne hnd
    cases hc : after? ds ns with
    | none =>
      rw [hc] at hbelow
      cases ha : accepted allowed ns <;> simp [ha, hc, hbelow, hi]
    | some ms =>
      rw [hc] at hbelow
      obtain rfl := after?_eq_some_iff.1 hc
      have hms : ms ≠ [] := by
        rintro rfl
        simp at hnd
      have hacc := accepted_append allowed ds hms
      cases ha : accepted allowed ms <;> rw [ha] at hacc <;> simp [ha, hc, hacc, hbelow, hi]

theorem entries_within {σ : Type} {followLinks : Bool} {guard : Guard σ} {s s' : σ}
    {allowed : List String} (h : fs.look .follow root = .ok (r, .dir mode))
    (hds : RealDir fs.tree r ds l) (hvalid : NamesValid fs.tree)
    (hf : Walk.found fs followLinks guard (pathLimit + 1) [] s root = names.map .ok)
    (hf' : Walk.found fs followLinks guard (pathLimit + 1) [] s' (root.joinAll ds) =
      (names.filterMap (after? ds)).map .ok) :
    ((names.filter (accepted allowed)).map Path.entryText).filterMap (Path.entryBelow ds) =
      ((names.filterMap (after? ds)).filter (accepted allowed)).map Path.entryText := by
  have hget : ∀ ns ∈ names, ns ≠ [] ∧ ∀ n ∈ ns, ∃ l d, fs.tree.get? (n :: l) = some d := by
    intro ns hns
    have hx : .ok ns ∈ Walk.found fs followLinks guard (pathLimit + 1) [] s root := by
      rw [hf]
      exact List.mem_map_of_mem hns
    exact Walk.exists_get?_of_found h rfl hx
  refine filterMap_entryBelow (fun ns hns n hn => ?_) (fun ns hns => ⟨(hget ns hns).1, ?_⟩)
    (fun d hd => ?_) hds.isEntryName fun hmem => ?_
  · obtain ⟨l, d, hg⟩ := (hget ns hns).2 n hn
    exact hvalid n l d hg
  · intro n hn
    obtain ⟨l, d, hg⟩ := (hget ns hns).2 n hn
    exact FileTree.isEntryName_of_get? hg
  · obtain ⟨l, n, hg⟩ := hds.exists_get? d hd
    exact hvalid d l n hg
  · -- A directory is no file that a walk finds.
    have hnil : .ok [] ∈ Walk.found fs followLinks guard (pathLimit + 1) [] s'
        (root.joinAll ds) := by
      rw [hf']
      exact List.mem_map_of_mem (List.mem_filterMap.2
        ⟨ds, hmem, after?_eq_some_iff.2 (List.append_nil ds).symm⟩)
    exact Walk.ok_mem_found_ne_nil hnil rfl

/-- Where the listing of a root succeeds, so does the listing of a directory below it that real
directories lead to and the walk comes to, and it gives the entries in there. -/
theorem collect_within {es : List String}
    (hroot : job.root = ⟨[Path.dot]⟩ ∨ Path.Component.here ∉ job.root.components)
    (h : fs.look .follow job.root = .ok (r, .dir mode)) (hds : RealDir fs.tree r ds l)
    (hvalid : NamesValid fs.tree)
    (hrules : job.respectIgnore = true → (∀ dir, WellFormed fs dir) ∧
      ComesTo fs job.root r ds ∧ ReadAlong fs job.root r ds ∧
      (ds ≠ [] → (Location.path l).bytes.length < pathLimit))
    (hes : (collect fs job).result = .ok es) :
    (collect fs { job with root := job.root.joinAll ds }).result =
      .ok (es.filterMap (Path.entryBelow ds)) := by
  by_cases hig : job.respectIgnore = true
  · obtain ⟨hwf, hcomes, hread, hlen⟩ := hrules hig
    have hop := opening_of_collect hig hcomes.1 h hes
    rcases collect_ignoring_of_begun hig hop h with ⟨names, hf, hc⟩ | ⟨w, -, hc⟩
    · obtain ⟨⟨mode', hl⟩, hf'⟩ := Walk.found_ignoring_within hroot h hf hds hcomes hread hlen
      obtain rfl := Except.ok.inj (hes.symm.trans hc)
      have hr := (FileSystem.look_follow_eq_ok_iff.1 h).1
      have hstd := Walk.isStandardInput_joinAll hr hds.isEntryName hcomes.1
      have hset : IgnoreSettings.Settled fs :=
        Walk.settled_of_opening fun file hf => by
          rw [hop] at hf
          cases hf
      rw [entries_within h hds hvalid hf hf']
      exact @collect_ignoring_of_found fs { job with root := job.root.joinAll ds } _ _ _ hig
        (Walk.opening_of_wellFormed hstd hset hwf) hl _ hf'
    · rw [hes] at hc
      cases hc
  · rw [Bool.not_eq_true] at hig
    rcases collect_plain hig h rfl with ⟨names, hf, hc⟩ | ⟨w, -, hc⟩
    · obtain ⟨⟨mode', hl⟩, hf'⟩ := Walk.found_open_within h hf hds
      obtain rfl := Except.ok.inj (hes.symm.trans hc)
      rw [entries_within h hds hvalid hf hf']
      rcases @collect_plain fs { job with root := job.root.joinAll ds } hig _ _ hl rfl with
        ⟨names', hn, hc'⟩ | ⟨w, hw, -⟩
      · obtain rfl := List.map_injective_iff.2 (fun _ _ => Except.ok.inj) (hf'.symm.trans hn)
        exact hc'
      · rw [hf'] at hw
        simp at hw
    · rw [hes] at hc
      cases hc

theorem namesValid_of_nodes {t : FileTree}
    (h : ∀ e ∈ t.nodes, ∀ name ∈ e.1, (Utf8.decode? name).isSome = true) : NamesValid t := by
  intro name l n hg
  exact h _ (FileTree.get?_cons_eq_some_iff.1 hg) name List.mem_cons_self

theorem comesTo_singleton {d : Name} (hstd : Walk.isStandardInput root = false)
    (hd : isSkipped fs root r true [d] = false) : ComesTo fs root r [d] := by
  refine ⟨hstd, fun ns hns hne => ?_⟩
  obtain rfl : ns = [d] := by simpa [List.prefix_cons_iff, hne] using hns
  exact hd

def anchoredTree : FileTree :=
  let d : Name := [0x64]
  let png := fun b : UInt8 => [b, 0x2E, 0x70, 0x6E, 0x67]
  ((((FileTree.empty.put [d] (.dir 0o755)).put [png 0x78, d] (.file 0o644 [])).put [png 0x79, d]
    (.file 0o644 [])).put [png 0x78] (.file 0o644 [])).put
    [[0x2E, 0x69, 0x67, 0x6E, 0x6F, 0x72, 0x65]] (.file 0o644 (Utf8.encode "/d/x.png\n"))

theorem collect_within_anchored :
    let fs : FileSystem := { tree := anchoredTree }
    let job : Job := { root := ⟨[Path.dot]⟩, respectIgnore := true }
    (collect fs job).result = .ok ["d/y.png", "x.png"] ∧
    (collect fs { job with root := job.root.joinAll [[0x64]] }).result =
      .ok (["d/y.png", "x.png"].filterMap (Path.entryBelow [[0x64]])) ∧
    ["d/y.png", "x.png"].filterMap (Path.entryBelow [[0x64]]) = ["y.png"] := by
  intro fs job
  have hc : (collect fs job).result = .ok ["d/y.png", "x.png"] := by decide +kernel
  have hg : fs.tree.get? [[0x64]] = some (.dir 0o755) := rfl
  have hvalid : NamesValid fs.tree := namesValid_of_nodes (by decide +kernel)
  have hl : fs.look .follow job.root = .ok ([], .dir 0o755) := by decide +kernel
  have hread : ReadAlong fs job.root [] [[0x64]] := by
    refine readAlong_of_unlinked (FileSystem.look_follow_eq_ok_iff.1 hl).1 rfl (.sub .root hg)
      fun ns hns hne => ?_
    obtain rfl : ns = [] := by simpa [List.prefix_cons_iff, hne] using hns
    exact ⟨unlinked_of_no_links (by decide +kernel) _, fun k => by cases k <;> decide +kernel⟩
  have hrules : (∀ dir, WellFormed fs dir) ∧ ComesTo fs job.root [] [[0x64]] ∧
      ReadAlong fs job.root [] [[0x64]] ∧
      ([[0x64]] ≠ ([] : List Name) → (Location.path [[0x64]]).bytes.length < pathLimit) :=
    ⟨wellFormed_of_contents (by decide +kernel), comesTo_singleton rfl (by decide +kernel), hread,
      fun _ => by decide +kernel⟩
  exact ⟨hc, @collect_within fs [] [[0x64]] [[0x64]] job 0o755 _ (.inl rfl) hl (.sub .root hg)
    hvalid (fun _ => hrules) hc, by decide +kernel⟩

/-- A picture that a rule excludes, where the rule is read over a link and there is a link back
to the top. -/
def linkedRulesTree : FileTree :=
  ((((FileTree.empty.put [[0x64]] (.dir 0o755)).put [[0x78, 0x2E, 0x70, 0x6E, 0x67], [0x64]]
    (.file 0o644 [])).put [[0x61]] (.link ⟨[Path.dot]⟩)).put
    [[0x2E, 0x69, 0x67, 0x6E, 0x6F, 0x72, 0x65]] (.link (.ofString "rules"))).put
    [[0x72, 0x75, 0x6C, 0x65, 0x73]] (.file 0o644 (Utf8.encode "x.png\n"))

/-- With as many links in the root's path as the system follows, the rules cannot be read from
there. From the directory they are read over the real path, and exclude the picture. -/
theorem collect_not_within_by_links :
    let fs : FileSystem := { tree := linkedRulesTree }
    let root := (⟨[0x61]⟩ : Path).joinAll (List.replicate 39 [0x61])
    let job : Job := { root := root, respectIgnore := true }
    (∀ c ∈ root.components, c ≠ .here ∧ c ≠ .up) ∧
    fs.look .follow root = .ok ([], .dir 0o755) ∧ RealDir fs.tree [] [[0x64]] [[0x64]] ∧
    NamesValid fs.tree ∧ (∀ dir, WellFormed fs dir) ∧ ComesTo fs root [] [[0x64]] ∧
    (collect fs job).result = .ok ["d/x.png"] ∧
    ["d/x.png"].filterMap (Path.entryBelow [[0x64]]) = ["x.png"] ∧
    (collect fs { job with root := root.joinAll [[0x64]] }).result = .ok [] := by
  intro fs root job
  have hg : fs.tree.get? [[0x64]] = some (.dir 0o755) := rfl
  have hvalid : NamesValid fs.tree := namesValid_of_nodes (by decide +kernel)
  have hwf : ∀ dir, WellFormed fs dir := wellFormed_of_contents (by decide +kernel)
  have hcomes : ComesTo fs root [] [[0x64]] :=
    comesTo_singleton (by decide +kernel) (by decide +kernel)
  exact ⟨by decide +kernel, by decide +kernel, .sub .root hg, hvalid, hwf, hcomes,
    by decide +kernel, by decide +kernel, by decide +kernel⟩

end Manifest

end ResourceManifest
