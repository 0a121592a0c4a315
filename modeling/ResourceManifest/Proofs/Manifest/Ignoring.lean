import ResourceManifest.Proofs.Ignore.Decision
import ResourceManifest.Proofs.Manifest.Entries

set_option autoImplicit false

namespace ResourceManifest

variable {fs : FileSystem}

theorem RuleFile.Plain.of_reaches {root : Path} {r : Location} (hr : fs.Reaches root r)
    (hroot : root = ⟨[Path.dot]⟩ ∨ Path.Component.here ∉ root.components) : Plain root :=
  hroot.elim (fun h => .inl (.inl (congrArg Path.bytes h))) (plain_of_notMem hr.bytes_ne_nil)

theorem IgnoreState.atRoot_faults {root : Path}
    (hwf : ∀ m ∈ (surroundings fs root).2, WellFormed fs (Location.path m)) :
    (atRoot fs root).2 = [] := by
  refine List.flatMap_eq_nil_iff.2 fun x hx => ?_
  obtain ⟨m, hm, rfl⟩ := List.mem_map.1 (List.mem_reverse.1 hx)
  exact (hwf m hm).load_faults

namespace Walk

variable {followLinks : Bool} {root : Path} {r : Location} {mode : Nat}

theorem opening_of_around (hstd : isStandardInput root = false)
    (hset : IgnoreSettings.Settled fs)
    (hwf : ∀ m ∈ (IgnoreState.surroundings fs root).2, WellFormed fs (Location.path m))
    (hown : IgnoreKind.endless? fs root = none) :
    opening fs root = ([], some (IgnoreState.atRoot fs root).1) := by
  have haround : IgnoreState.endlessAround? fs root = none :=
    IgnoreState.endlessAround?_eq_none_iff.2 fun m hm => (hwf m hm).endless?
  rw [opening_of_ends hstd hset haround (IgnoreState.endlessOwn?_eq_none fun _ _ _ => hown),
    aroundFaults, IgnoreState.atRoot_faults hwf]
  rfl

theorem opening_of_wellFormed (hstd : isStandardInput root = false)
    (hset : IgnoreSettings.Settled fs) (hwf : ∀ dir, WellFormed fs dir) :
    opening fs root = ([], some (IgnoreState.atRoot fs root).1) :=
  opening_of_around hstd hset (fun _ _ => hwf _) (hwf root).endless?

theorem found_ignoring (hroot : root = ⟨[Path.dot]⟩ ∨ Path.Component.here ∉ root.components)
    (h : fs.look .follow root = .ok (r, .dir mode)) (hwf : ∀ dir, WellFormed fs dir)
    {names : List (List Name)}
    (hf : found fs followLinks Guard.open (pathLimit + 1) [] () root = names.map .ok) :
    found fs followLinks IgnoreState.guard (pathLimit + 1) [] (IgnoreState.atRoot fs root).1 root =
      (names.filter (isLeft fs root r)).map .ok := by
  obtain ⟨hr, hg⟩ := FileSystem.look_follow_eq_ok_iff.1 h
  have hplain := RuleFile.Plain.of_reaches hr hroot
  have hdir := FileTree.isEntryName_of_isDir (FileTree.isDir_iff.2 ⟨mode, hg⟩)
  have hok : ∀ w, .error w ∉ found fs followLinks Guard.open (pathLimit + 1) [] () root := by
    intro w hw
    rw [hf] at hw
    simp at hw
  have henter : IgnoreState.guard.enter fs (IgnoreState.atRoot fs root).1 root =
      (IgnoreState.atRoot fs root).1.along fs [] := IgnoreState.enter_root rfl
  have hleft : ∀ ns ∈ names,
      passes fs IgnoreState.guard ((IgnoreState.atRoot fs root).1.along fs []) root ns =
        isLeft fs root r ns := by
    intro ns hns
    obtain ⟨-, hn⟩ := isEntryName_of_found h rfl hf hns
    exact IgnoreState.passes_along hplain (IgnoreState.knows_atRoot h) hdir hn
  rw [found_eq_filter _ (fun q => (hwf q).endless?) hok, hf, henter, List.filter_map]
  congr 1
  exact List.filter_congr hleft

end Walk

namespace Manifest

variable {job : Job}

theorem exists_look_of_checkRoot {root : Path} (h : checkRoot fs root = .ok ()) :
    ∃ r mode, fs.look .follow root = .ok (r, .dir mode) := by
  unfold checkRoot at h
  cases hs : fs.stat root with
  | error f => cases f <;> simp [hs] at h
  | ok n =>
    obtain ⟨r, hr⟩ := FileSystem.stat_eq_ok_iff.1 hs
    cases n with
    | dir mode => exact ⟨r, mode, hr⟩
    | _ => simp [hs, Node.isDir] at h

theorem exists_look_of_collect {es : List String} (h : (collect fs job).result = .ok es) :
    ∃ r mode, fs.look .follow job.root = .ok (r, .dir mode) := by
  unfold collect at h
  cases hc : checkRoot fs job.root with
  | error f => simp [hc] at h
  | ok u => exact exists_look_of_checkRoot hc

section Names

variable {root : Path} {r : Location} {mode : Nat} {followLinks : Bool} {names : List (List Name)}

theorem findFiles_of_found (h : fs.look .follow root = .ok (r, .dir mode))
    (hf : Walk.found fs followLinks Guard.open (pathLimit + 1) [] () root = names.map .ok) :
    findFiles fs root followLinks false = names.map fun ns => .ok (root.joinAll ns) := by
  simp only [findFiles, Bool.false_eq_true, if_false, Walk.files_of_dir h rfl, hf, List.map_map]
  rfl

theorem entries_of_names (hp : root.bytes ≠ []) (allowed : List String)
    (hn : ∀ ns ∈ names, ns ≠ [] ∧ ∀ n ∈ ns, isEntryName n = true) :
    (entries root allowed (names.map fun ns => .ok (root.joinAll ns))).result =
      .ok ((names.filter (accepted allowed)).map Path.entryText) := by
  have hx : ∀ ns, .ok ns ∈ (names.map .ok : Walk.Finds) → ns ≠ [] ∧ ∀ n ∈ ns, isEntryName n = true :=
    fun ns hns => hn ns (by simpa using hns)
  rcases entries_of_finds hp allowed (.walk root) (names.map .ok) hx with ⟨names', hs, he⟩ | ⟨w, hw, -⟩
  · obtain rfl : names = names' := List.map_injective_iff.2 (fun _ _ => Except.ok.inj) hs
    rw [List.map_map] at he
    exact he
  · simp at hw

end Names

theorem entries_upToEndless (root : Path) (allowed : List String) (fault : WalkFault → Failure)
    (items : List (Except WalkFault Path)) :
    entries root allowed ((Walk.upToEndless items).map fun x => x.mapError fault) =
      entries root allowed (items.map fun x => x.mapError fault) := by
  induction items with
  | nil => rfl
  | cons item items ih =>
    cases item with
    | error w => cases w <;> rfl
    | ok p =>
      have hcons : Walk.upToEndless (.ok p :: items) = .ok p :: Walk.upToEndless items := rfl
      simp only [hcons, List.map_cons, mapError_ok, entries, ih]

section Opening

variable {r : Location} {mode : Nat} {s : IgnoreState}

/-- A job that heeds ignore files ends with the first thing that is wrong around its root, or goes
on with the walk. -/
theorem collect_ignoring_of_opening (hig : job.respectIgnore = true)
    (h : fs.look .follow job.root = .ok (r, .dir mode)) :
    (collect fs job).result = match Walk.opening fs job.root with
      | (f :: _, _) => .error (.ignore job.root f)
      | ([], none) => .ok []
      | ([], some s) => (entries job.root job.allowed
          ((Walk.found fs job.followLinks IgnoreState.guard (pathLimit + 1) [] s job.root).map
            fun x => (x.map job.root.joinAll).mapError fun w => .ignore job.root (.walk w))).result := by
  simp only [collect, checkRoot_of_dir h rfl, findFiles, hig, if_true, Walk.unignored]
  rcases Walk.opening fs job.root with ⟨before, start?⟩
  cases before with
  | cons f before => rfl
  | nil =>
    cases start? with
    | none => rfl
    | some s =>
      have hfault : ∀ x : Except WalkFault Path,
          (x.mapError IgnoreFault.walk).mapError (Failure.ignore job.root) =
            x.mapError fun w => .ignore job.root (.walk w) := fun x => by
        cases x <;> rfl
      simp only [List.map_nil, List.nil_append, List.map_map, Function.comp_def, hfault,
        entries_upToEndless, Walk.files_of_dir h rfl]

theorem opening_of_collect (hig : job.respectIgnore = true)
    (hstd : Walk.isStandardInput job.root = false)
    (h : fs.look .follow job.root = .ok (r, .dir mode)) {es : List String}
    (hes : (collect fs job).result = .ok es) :
    Walk.opening fs job.root = ([], some (IgnoreState.atRoot fs job.root).1) := by
  rw [collect_ignoring_of_opening hig h] at hes
  rcases hop : Walk.opening fs job.root with ⟨before, start?⟩
  rw [hop] at hes
  cases before with
  | cons f before => cases hes
  | nil =>
    cases start? with
    | none => exact absurd hop (Walk.opening_ne_none hstd)
    | some s => rw [(Walk.opening_of_some hop).2.2]

theorem findFiles_ignoring_of_found (hop : Walk.opening fs job.root = ([], some s))
    (h : fs.look .follow job.root = .ok (r, .dir mode)) {names : List (List Name)}
    (hf : Walk.found fs job.followLinks IgnoreState.guard (pathLimit + 1) [] s job.root =
      names.map .ok) :
    findFiles fs job.root job.followLinks true =
      names.map fun ns => .ok (job.root.joinAll ns) := by
  have hfiles : Walk.files fs job.followLinks IgnoreState.guard s job.root =
      names.map fun ns => .ok (job.root.joinAll ns) := by
    rw [Walk.files_of_dir h rfl, hf, List.map_map]
    rfl
  have hends : Walk.upToEndless (names.map fun ns => .ok (job.root.joinAll ns)) =
      names.map fun ns => .ok (job.root.joinAll ns) :=
    Walk.upToEndless_eq_self fun file hm => by simp at hm
  simp only [findFiles, Walk.unignored, hop, if_true, List.map_nil, List.nil_append, hfiles, hends,
    List.map_map]
  rfl

theorem collect_ignoring_of_found (hig : job.respectIgnore = true)
    (hop : Walk.opening fs job.root = ([], some s))
    (h : fs.look .follow job.root = .ok (r, .dir mode)) {names : List (List Name)}
    (hf : Walk.found fs job.followLinks IgnoreState.guard (pathLimit + 1) [] s job.root =
      names.map .ok) :
    (collect fs job).result = .ok ((names.filter (accepted job.allowed)).map Path.entryText) := by
  have hp := (FileSystem.look_follow_eq_ok_iff.1 h).1.bytes_ne_nil
  simp only [collect, checkRoot_of_dir h rfl, hig, findFiles_ignoring_of_found hop h hf]
  exact entries_of_names hp job.allowed fun ns hns => Walk.isEntryName_of_found h rfl hf hns

theorem collect_ignoring_of_begun (hig : job.respectIgnore = true)
    (hop : Walk.opening fs job.root = ([], some s))
    (h : fs.look .follow job.root = .ok (r, .dir mode)) :
    (∃ found : List (List Name), Walk.found fs job.followLinks IgnoreState.guard (pathLimit + 1) []
        s job.root = found.map .ok ∧
      (collect fs job).result =
        .ok ((found.filter (accepted job.allowed)).map Path.entryText)) ∨
    ∃ w, .error w ∈ Walk.found fs job.followLinks IgnoreState.guard (pathLimit + 1) []
        s job.root ∧
      (collect fs job).result = .error (.ignore job.root (.walk w)) := by
  rw [collect_ignoring_of_opening hig h, hop]
  exact entries_of_finds (FileSystem.look_follow_eq_ok_iff.1 h).1.bytes_ne_nil job.allowed _ _
    fun ns hx => Walk.ok_mem_found h rfl hx

end Opening

/-- Where the plain listing succeeds, the listing that heeds ignore files does as well. Of the
files found it leaves out those that are skipped, or that lie in a directory that is. -/
theorem collect_ignoring_eq_filter
    (hroot : job.root = ⟨[Path.dot]⟩ ∨ Path.Component.here ∉ job.root.components)
    (hstd : Walk.isStandardInput job.root = false)
    (hset : IgnoreSettings.Settled fs) (hwf : ∀ dir, WellFormed fs dir)
    {es : List String} (hes : (collect fs { job with respectIgnore := false }).result = .ok es) :
    ∃ (r : Location) (mode : Nat) (found : List (List Name)),
      fs.look .follow job.root = .ok (r, .dir mode) ∧
      findFiles fs job.root job.followLinks false =
        found.map (fun ns => .ok (job.root.joinAll ns)) ∧
      es = (found.filter (accepted job.allowed)).map Path.entryText ∧
      (collect fs { job with respectIgnore := true }).result =
        .ok (((found.filter (accepted job.allowed)).filter (isLeft fs job.root r)).map
          Path.entryText) := by
  obtain ⟨r, mode, h⟩ := exists_look_of_collect hes
  rcases @collect_plain fs { job with respectIgnore := false } rfl r _ h rfl with
    ⟨found, hf, hc⟩ | ⟨w, -, hc⟩
  · have hfi := Walk.found_ignoring hroot h hwf hf
    refine ⟨r, mode, found, h, findFiles_of_found h hf, Except.ok.inj (hes.symm.trans hc), ?_⟩
    rw [List.filter_comm]
    exact @collect_ignoring_of_found fs { job with respectIgnore := true } _ _ _ rfl
      (Walk.opening_of_wellFormed hstd hset hwf) h _ hfi
  · rw [hes] at hc
    cases hc

def ignoringTree : FileTree :=
  let d : Name := [0x64]
  (((FileTree.empty.put [d] (.dir 0o755)).put
    [[0x2E, 0x69, 0x67, 0x6E, 0x6F, 0x72, 0x65]] (.file 0o644 d)).put
    [[0x78, 0x2E, 0x70, 0x6E, 0x67], d] (.file 0o644 [])).put
    [[0x61, 0x2E, 0x70, 0x6E, 0x67]] (.file 0o644 [])

theorem wellFormed_ignoringTree (dir : Path) : WellFormed { tree := ignoringTree } dir :=
  wellFormed_of_contents (by decide +kernel) dir

theorem collect_ignoring_eq_filter_pruned :
    let fs : FileSystem := { tree := ignoringTree }
    let job : Job := { root := ⟨[0x2E]⟩ }
    (collect fs job).result = .ok ["a.png", "d/x.png"] ∧
    isLeft fs job.root [] [[0x61, 0x2E, 0x70, 0x6E, 0x67]] = true ∧
    isLeft fs job.root [] [[0x64], [0x78, 0x2E, 0x70, 0x6E, 0x67]] = false ∧
    ∃ (r : Location) (mode : Nat) (found : List (List Name)),
      fs.look .follow job.root = .ok (r, .dir mode) ∧
      findFiles fs job.root job.followLinks false =
        found.map (fun ns => .ok (job.root.joinAll ns)) ∧
      ["a.png", "d/x.png"] = (found.filter (accepted job.allowed)).map Path.entryText ∧
      (collect fs { job with respectIgnore := true }).result =
        .ok (((found.filter (accepted job.allowed)).filter (isLeft fs job.root r)).map
          Path.entryText) := by
  have hc : (collect { tree := ignoringTree } { root := ⟨[0x2E]⟩ }).result =
      .ok ["a.png", "d/x.png"] := by cbv
  have ha : isLeft { tree := ignoringTree } ⟨[0x2E]⟩ [] [[0x61, 0x2E, 0x70, 0x6E, 0x67]] = true := by
    cbv
  have hx : isLeft { tree := ignoringTree } ⟨[0x2E]⟩ [] [[0x64], [0x78, 0x2E, 0x70, 0x6E, 0x67]] =
      false := by cbv
  exact ⟨hc, ha, hx, @collect_ignoring_eq_filter { tree := ignoringTree } { root := ⟨[0x2E]⟩ }
    (.inl rfl) rfl ⟨none, rfl⟩ wellFormed_ignoringTree _ hc⟩

def dashTree : FileTree :=
  (FileTree.empty.put [[0x2D]] (.dir 0o755)).put
    [[0x78, 0x2E, 0x70, 0x6E, 0x67], [0x2D]] (.file 0o644 [])

/-- A slash behind the name of the standard input does not make it a directory to walk. -/
theorem collect_ignoring_dash :
    let fs : FileSystem := { tree := dashTree }
    let job : Job := { root := ⟨[0x2D, 0x2F]⟩ }
    (∀ dir, WellFormed fs dir) ∧ (collect fs job).result = .ok ["x.png"] ∧
    isLeft fs job.root [[0x2D]] [[0x78, 0x2E, 0x70, 0x6E, 0x67]] = true ∧
    (collect fs { job with respectIgnore := true }).result = .ok [] := by
  have hdash : (collect { tree := dashTree } { root := ⟨[0x2D, 0x2F]⟩ }).result =
      .ok ["x.png"] := by cbv
  exact ⟨wellFormed_of_contents (by decide +kernel), hdash, by cbv, by cbv⟩

end Manifest

end ResourceManifest
