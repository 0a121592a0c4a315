import ResourceManifest.Proofs.Manifest.Seen

/-!
The order in which files are found. Below the root they ascend, name by name and byte by byte, so
that the same files are always found in the same order, however the directories list their entries.
-/

set_option autoImplicit false

namespace ResourceManifest

variable {fs fs' : FileSystem} {root : Path} {followLinks respectIgnore : Bool}

namespace Walk

variable {σ : Type} {guard : Guard σ} {s : σ} {xs : Finds} {ns : List Name}

def Finds.names (xs : Finds) : List (List Name) := xs.filterMap Except.toOption

theorem Finds.mem_names_iff : ns ∈ xs.names ↔ .ok ns ∈ xs := by
  unfold names
  rw [List.mem_filterMap]
  constructor
  · intro h
    obtain ⟨x, hx, hns⟩ := h
    cases x with
    | error w => simp [Except.toOption] at hns
    | ok ms =>
      obtain rfl : ms = ns := by simpa [Except.toOption] using hns
      exact hx
  · exact fun h => ⟨.ok ns, h, rfl⟩

theorem Ascending.names (h : Ascending xs) : xs.names.Pairwise (· < ·) := by
  refine List.pairwise_filterMap.2 (List.Pairwise.imp ?_ h)
  intro x y hxy ms hms ns hns
  cases x with
  | error w => simp [Except.toOption] at hms
  | ok ms' =>
    cases y with
    | error w => simp [Except.toOption] at hns
    | ok ns' =>
      obtain rfl : ms' = ms := by simpa [Except.toOption] using hms
      obtain rfl : ns' = ns := by simpa [Except.toOption] using hns
      exact hxy ms' ns' rfl rfl

/-- Names in their order that lead somewhere from a root. No names lead to the root itself, and it
is found only if it is a file. -/
structure Below (fs : FileSystem) (root : Path) (names : List (List Name)) : Prop where
  ascending : names.Pairwise (· < ·)
  root_ne_nil : names ≠ [] → root.bytes ≠ []
  isEntryName : ∀ ns ∈ names, ∀ n ∈ ns, isEntryName n = true
  isFile_of_nil : [] ∈ names → ∃ n, fs.stat root = .ok n ∧ n.isFile = true

theorem Below.nil (fs : FileSystem) (root : Path) : Below fs root [] :=
  ⟨.nil, fun h => absurd rfl h, by simp, by simp⟩

theorem Below.of_sublist {names names' : List (List Name)} (h : Below fs root names)
    (hsub : names'.Sublist names) : Below fs root names' where
  ascending := h.ascending.sublist hsub
  root_ne_nil hne := h.root_ne_nil fun hnil => hne (List.sublist_nil.1 (hnil ▸ hsub))
  isEntryName ns hns := h.isEntryName ns (hsub.subset hns)
  isFile_of_nil hnil := h.isFile_of_nil (hsub.subset hnil)

theorem below_names_of_dir {r : Location} {d : Node} (h : fs.look .follow root = .ok (r, d))
    (hd : d.isDir = true) :
    Below fs root (found fs followLinks guard (pathLimit + 1) [] s root).names where
  ascending := (found_ascending fs followLinks guard _ _ s root).names
  root_ne_nil _ := (FileSystem.look_follow_eq_ok_iff.1 h).1.bytes_ne_nil
  isEntryName _ hns := (ok_mem_found h hd (Finds.mem_names_iff.1 hns)).2
  isFile_of_nil hnil := absurd rfl (ok_mem_found h hd (Finds.mem_names_iff.1 hnil)).1

theorem below_root {r : Location} {d : Node} (h : fs.look .follow root = .ok (r, d))
    (hd : d.isFile = true) : Below fs root [[]] where
  ascending := List.pairwise_singleton _ _
  root_ne_nil _ := (FileSystem.look_follow_eq_ok_iff.1 h).1.bytes_ne_nil
  isEntryName := by simp
  isFile_of_nil _ := ⟨d, FileSystem.stat_eq_ok_iff.2 ⟨r, h⟩, hd⟩

theorem exists_files_eq (fs : FileSystem) (followLinks : Bool) (guard : Guard σ) (s : σ)
    (root : Path) : ∃ xs : Finds,
      files fs followLinks guard s root = (xs.map fun x => x.map root.joinAll) ∧
      Below fs root xs.names := by
  cases hk : fs.look .keep root with
  | error f => exact ⟨[.error (.file root f)], by simp [files, hk, Except.map], .nil fs root⟩
  | ok top =>
    cases hl : fs.look .follow root with
    | error f =>
      have hs : fs.stat root = .error f := by simp [FileSystem.stat, hl, Except.map]
      exact ⟨[.error (.file root f)], by simp [files, hk, hs, Except.map], .nil fs root⟩
    | ok x =>
      obtain ⟨r, d⟩ := x
      have hs := FileSystem.stat_eq_ok_iff.2 ⟨r, hl⟩
      cases hd : d.isDir with
      | true => exact ⟨_, files_of_dir hl hd, below_names_of_dir hl hd⟩
      | false =>
        cases hf : d.isFile with
        | true => exact ⟨[.ok []], by simp [files, hk, hs, hd, hf, Except.map], below_root hl hf⟩
        | false => exact ⟨[], by simp [files, hk, hs, hd, hf], .nil fs root⟩

end Walk

theorem exists_findFiles_eq (fs : FileSystem) (root : Path) (followLinks respectIgnore : Bool) :
    ∃ (xs : Walk.Finds) (fault : WalkFault → Failure) (before : List Failure),
      findFiles fs root followLinks respectIgnore = before.map .error ++
        xs.map (fun x => (x.map root.joinAll).mapError fault) ∧
      Walk.Below fs root xs.names := by
  cases respectIgnore with
  | false =>
    obtain ⟨xs, hx, hb⟩ := Walk.exists_files_eq fs followLinks Guard.open () root
    exact ⟨xs, .walk root, [], by simp [findFiles, hx, Function.comp_def], hb⟩
  | true =>
    have hfault : ∀ x : Except WalkFault Path,
        (x.mapError IgnoreFault.walk).mapError (Failure.ignore root) =
          x.mapError fun w => .ignore root (.walk w) := fun x => by
      cases x <;> rfl
    rcases hop : Walk.opening fs root with ⟨before, start?⟩
    cases start? with
    | none =>
      refine ⟨[], .walk root, before.map (.ignore root), ?_, .nil fs root⟩
      simp [findFiles, Walk.unignored, hop, Except.mapError]
    | some s =>
      obtain ⟨xs, hx, hb⟩ := Walk.exists_files_eq fs followLinks IgnoreState.guard s root
      -- The walk goes no further than it comes, which is as far as the first `k` finds.
      obtain ⟨k, hk⟩ : ∃ k, Walk.upToEndless (xs.map fun x => x.map root.joinAll) =
          (xs.map fun x => x.map root.joinAll).take k :=
        ⟨_, List.prefix_iff_eq_take.1 (Walk.upToEndless_prefix _)⟩
      refine ⟨xs.take k, fun w => .ignore root (.walk w), before.map (.ignore root), ?_,
        hb.of_sublist ((List.take_sublist k xs).filterMap _)⟩
      simp only [findFiles, Walk.unignored, hop, hx, hk, if_true, ← List.map_take, List.map_append,
        List.map_map, Function.comp_def, hfault]
      rfl

/-- The files that a search gives out, without its faults. -/
def foundFiles (fs : FileSystem) (root : Path) (followLinks respectIgnore : Bool) : List Path :=
  (findFiles fs root followLinks respectIgnore).filterMap Except.toOption

theorem exists_foundFiles_eq (fs : FileSystem) (root : Path) (followLinks respectIgnore : Bool) :
    ∃ names : List (List Name),
      foundFiles fs root followLinks respectIgnore = names.map root.joinAll ∧
      Walk.Below fs root names := by
  obtain ⟨xs, fault, before, h, hb⟩ := exists_findFiles_eq fs root followLinks respectIgnore
  refine ⟨xs.names, ?_, hb⟩
  have hbefore : (before.map Except.error).filterMap
      (Except.toOption : Except Failure Path → Option Path) = [] := by
    simp [Except.toOption]
  rw [foundFiles, h, List.filterMap_append, hbefore, List.nil_append, List.filterMap_map,
    Walk.Finds.names, List.map_filterMap]
  refine List.filterMap_congr fun x _ => ?_
  cases x <;> rfl

theorem exists_names_of_findFiles {followLinks respectIgnore : Bool} {files : List Path}
    (h : findFiles fs root followLinks respectIgnore = files.map .ok) :
    ∃ names : List (List Name), files = names.map root.joinAll ∧ Walk.Below fs root names := by
  obtain ⟨names, hnames, hb⟩ := exists_foundFiles_eq fs root followLinks respectIgnore
  have hfound : foundFiles fs root followLinks respectIgnore = files := by
    simp [foundFiles, h, Function.comp_def, Except.toOption]
  exact ⟨names, hfound.symm.trans hnames, hb⟩

namespace Walk.Below

variable {names names' : List (List Name)}

theorem isSegment (h : Below fs root names) {ns : List Name} (hns : ns ∈ names) :
    ∀ n ∈ ns, Path.IsSegment n :=
  Path.isSegment_of_isEntryName (h.isEntryName ns hns)

theorem nil_notMem (h : Below fs root names) {r : Location} {d : Node}
    (hl : fs.look .follow root = .ok (r, d)) (hd : d.isDir = true) : [] ∉ names := by
  intro hm
  obtain ⟨n, hs, hf⟩ := h.isFile_of_nil hm
  obtain rfl : d = n := Except.ok.inj ((FileSystem.stat_eq_ok_iff.2 ⟨r, hl⟩).symm.trans hs)
  cases d <;> simp [Node.isDir, Node.isFile] at hd hf

theorem components (h : Below fs root names) :
    (names.map root.joinAll).map Path.components =
      names.map fun ns => root.components ++ ns.map .name := by
  rw [List.map_map]
  refine List.map_congr_left fun ns hns => ?_
  exact Path.components_joinAll (h.root_ne_nil (List.ne_nil_of_mem hns)) (h.isSegment hns)

theorem nodup (h : Below fs root names) : names.Nodup := by
  refine List.Pairwise.imp ?_ h.ascending
  rintro ms ns hlt rfl
  exact List.lt_irrefl ms hlt

theorem namesBelow (h : Below fs root names) {ns : List Name} (hns : ns ∈ names) :
    root.namesBelow (root.joinAll ns) = some ns :=
  Path.namesBelow_joinAll (h.root_ne_nil (List.ne_nil_of_mem hns)) (h.isSegment hns)

theorem nodup_map (h : Below fs root names) : (names.map root.joinAll).Nodup := by
  refine h.nodup.map_on fun ms hms ns hns heq => ?_
  have hb := h.namesBelow hms
  rw [heq, h.namesBelow hns] at hb
  exact (Option.some.inj hb).symm

theorem mem_of_mem_map (h : Below fs root names) (h' : Below fs' root names') {ns : List Name}
    (hns : ns ∈ names) (hm : root.joinAll ns ∈ names'.map root.joinAll) : ns ∈ names' := by
  obtain ⟨ms, hms, heq⟩ := List.mem_map.1 hm
  have hb := h.namesBelow hns
  rw [← heq, h'.namesBelow hms] at hb
  rwa [← Option.some.inj hb]

theorem eq_of_mem_iff (h : Below fs root names) (h' : Below fs' root names')
    (hsame : ∀ p, p ∈ names.map root.joinAll ↔ p ∈ names'.map root.joinAll) : names = names' := by
  have hperm : names.Perm names' := by
    refine (List.perm_ext_iff_of_nodup h.nodup h'.nodup).2 fun ns => ⟨fun hns => ?_, fun hns => ?_⟩
    · exact h.mem_of_mem_map h' hns ((hsame _).1 (List.mem_map_of_mem hns))
    · exact h'.mem_of_mem_map h hns ((hsame _).2 (List.mem_map_of_mem hns))
  exact hperm.eq_of_pairwise (fun _ _ _ _ hlt hgt => absurd hgt (List.lt_asymm hlt)) h.ascending
    h'.ascending

end Walk.Below

/-- Each directory has the same entries, listed in whatever order. -/
structure FileSystem.SameEntries (fs fs' : FileSystem) : Prop where
  nodes : fs.tree.nodes.Perm fs'.tree.nodes
  cwd : fs'.cwd = fs.cwd
  ignoring : fs'.ignoring = fs.ignoring

namespace FileSystem.SameEntries

theorem get? (h : fs.SameEntries fs') (l : Location) : fs'.tree.get? l = fs.tree.get? l := by
  cases l with
  | nil => rw [FileTree.get?_nil, FileTree.get?_nil]
  | cons n l =>
    refine Option.ext fun d => ?_
    rw [FileTree.get?_cons_eq_some_iff, FileTree.get?_cons_eq_some_iff, h.nodes.mem_iff]

theorem sameShape (h : fs.SameEntries fs') : fs'.tree.SameShape fs.tree :=
  fun l => congrArg (Option.map Node.blank) (h.get? l)

theorem look (h : fs.SameEntries fs') (ending : Ending) (p : Path) :
    fs'.look ending p = fs.look ending p := by
  simp only [FileSystem.look, FileSystem.locate, h.cwd, h.sameShape.resolve, h.get?]

theorem contents (h : fs.SameEntries fs') (p : Path) : fs'.contents p = fs.contents p := by
  simp only [FileSystem.contents, FileSystem.stat, h.look]

theorem sameSuccess_contents (h : fs.SameEntries fs') (p : Path) :
    SameSuccess (fs'.contents p) (fs.contents p) := by
  rw [h.contents]
  exact .refl _

section Files

variable {σ : Type} {guard : Guard σ}

theorem kind (h : fs.SameEntries fs')
    (hends : ∀ p, guard.endless? fs' p = guard.endless? fs p) (above : List Walk.Ancestor)
    (p : Path) (n : Node) :
    Walk.kind fs' guard followLinks above p n = Walk.kind fs guard followLinks above p n := by
  unfold Walk.kind Walk.plainKind
  simp only [h.look, hends]

theorem files (h : fs.SameEntries fs') (followLinks : Bool)
    (hends : ∀ p, guard.endless? fs' p = guard.endless? fs p)
    (hguard : ∀ s p, guard.enter fs' s p = guard.enter fs s p) (s : σ) (root : Path) :
    Walk.files fs' followLinks guard s root = Walk.files fs followLinks guard s root := by
  have hbelow : ∀ levels above s p,
      Walk.below fs' followLinks guard levels above s p =
        Walk.below fs followLinks guard levels above s p := by
    intro levels
    induction levels with
    | zero => exact fun _ _ _ => rfl
    | succ levels ih =>
      intro above s p
      simp only [Walk.below, h.look, h.sameShape.names, h.get?, h.kind hends, hguard, ih]
  simp only [Walk.files, FileSystem.stat, h.look, hbelow]

end Files

theorem opensAlike (h : fs.SameEntries fs') (root : Path) : Walk.OpensAlike fs' fs root :=
  .of_contents h.ignoring.symm h.cwd.symm (h.look _ root ▸ .refl _) h.sameSuccess_contents

theorem findFiles (h : fs.SameEntries fs') (root : Path) (followLinks respectIgnore : Bool) :
    findFiles fs' root followLinks respectIgnore = findFiles fs root followLinks respectIgnore := by
  have hopen : ∀ s root, Walk.files fs' followLinks Guard.open s root =
      Walk.files fs followLinks Guard.open s root :=
    h.files followLinks (fun _ => rfl) fun _ _ => rfl
  have hignore := h.files followLinks
    (fun _ => IgnoreKind.endless?_congr fun _ => h.sameSuccess_contents _)
    fun s p => IgnoreState.enter_congr h.ignoring.symm (fun _ => h.sameSuccess_contents _) s
  have hop := (h.opensAlike root).opening
  simp only [ResourceManifest.findFiles, Walk.unignored, hop, hopen, hignore]

end FileSystem.SameEntries

/-- In every mode the files found ascend by their names below the root: no file is found twice, the
same files are always found in the same order, and how the directories list their entries makes no
difference. -/
theorem foundFiles_ascending (fs : FileSystem) (root : Path) (followLinks respectIgnore : Bool) :
    (∃ names : List (List Name), names.Pairwise (· < ·) ∧
      (foundFiles fs root followLinks respectIgnore).map Path.components =
        names.map fun ns => root.components ++ ns.map .name) ∧
    (foundFiles fs root followLinks respectIgnore).Nodup ∧
    (∀ fs' followLinks' respectIgnore',
      (∀ p, p ∈ foundFiles fs root followLinks respectIgnore ↔
        p ∈ foundFiles fs' root followLinks' respectIgnore') →
      foundFiles fs root followLinks respectIgnore =
        foundFiles fs' root followLinks' respectIgnore') ∧
    ∀ fs', fs.SameEntries fs' →
      findFiles fs' root followLinks respectIgnore =
        findFiles fs root followLinks respectIgnore := by
  obtain ⟨names, hf, hb⟩ := exists_foundFiles_eq fs root followLinks respectIgnore
  rw [hf]
  refine ⟨⟨names, hb.ascending, hb.components⟩, hb.nodup_map, ?_, ?_⟩
  · intro fs' followLinks' respectIgnore' hsame
    obtain ⟨names', hf', hb'⟩ := exists_foundFiles_eq fs' root followLinks' respectIgnore'
    rw [hf'] at hsame ⊢
    rw [hb.eq_of_mem_iff hb' hsame]
  · exact fun fs' h => h.findFiles root followLinks respectIgnore

/-- Pictures beside a directory and in it; their names differ first where its own ends. -/
def besideTree : FileTree :=
  let a := Utf8.encode "a"
  (((FileTree.empty.put [a] (.dir 0o755)).put [Utf8.encode "x.png", a] (.file 0o644 [])).put
    [Utf8.encode "a-b.png"] (.file 0o644 [])).put [Utf8.encode "a.png"] (.file 0o644 [])

def besideTree' : FileTree :=
  let a := Utf8.encode "a"
  (((FileTree.empty.put [Utf8.encode "a.png"] (.file 0o644 [])).put [Utf8.encode "a-b.png"]
    (.file 0o644 [])).put [a] (.dir 0o755)).put [Utf8.encode "x.png", a] (.file 0o644 [])

theorem foundFiles_ascending_beside :
    let fs : FileSystem := { tree := besideTree }
    let fs' : FileSystem := { tree := besideTree' }
    let root := Path.ofString "."
    fs.SameEntries fs' ∧
    foundFiles fs root false false = ["./a/x.png", "./a-b.png", "./a.png"].map .ofString ∧
    foundFiles fs root false false = foundFiles fs root true true ∧
    findFiles fs' root false false = findFiles fs root false false := by
  intro fs fs' root
  obtain ⟨-, -, hmodes, horder⟩ := foundFiles_ascending fs root false false
  have hsame : fs.SameEntries fs' := ⟨by decide +kernel, rfl, rfl⟩
  have hf : foundFiles fs root false false =
      ["./a/x.png", "./a-b.png", "./a.png"].map .ofString := by decide +kernel
  have hf' : foundFiles fs root true true =
      ["./a/x.png", "./a-b.png", "./a.png"].map .ofString := by decide +kernel
  exact ⟨hsame, hf, hmodes fs true true fun p => by rw [hf, hf'], horder fs' hsame⟩

end ResourceManifest
