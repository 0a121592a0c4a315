import ResourceManifest.Proofs.Manifest.Entries

set_option autoImplicit false

namespace ResourceManifest

/-- The directories to which real directories alone lead from `r`, with the names on the way. -/
inductive RealDir (t : FileTree) (r : Location) : List Name → Location → Prop where
  | root : RealDir t r [] r
  | sub {ns : List Name} {l : Location} {name : Name} {mode : Nat} :
      RealDir t r ns l → t.get? (name :: l) = some (.dir mode) →
      RealDir t r (ns ++ [name]) (name :: l)

def FileSystem.ReachesFile (fs : FileSystem) (p : Path) : Prop :=
  ∃ l mode content, fs.Reaches p l ∧ fs.tree.get? l = some (.file mode content)

/-- The names lead over real directories to a regular file, or to a link that leads to one, and
the last of them has an accepted extension. -/
def ListedPlainly (fs : FileSystem) (root : Path) (allowed : List String) (r : Location)
    (ns : List Name) : Prop :=
  ∃ dirs name l n, ns = dirs ++ [name] ∧ RealDir fs.tree r dirs l ∧
    fs.tree.get? (name :: l) = some n ∧
    (n.isFile = true ∨ n.isLink = true ∧ fs.ReachesFile (root.joinAll ns)) ∧
    isAllowed (Utf8.decodeLossy name) allowed = true

namespace Walk

variable {fs : FileSystem} {root : Path} {r : Location} {d : Node}

theorem reachesFile_iff {p : Path} : fs.ReachesFile p ↔
    ∃ l n, fs.look .follow p = .ok (l, n) ∧ n.isFile = true := by
  constructor
  · intro hx
    obtain ⟨l, mode, content, hr, hg⟩ := hx
    exact ⟨l, _, FileSystem.look_follow_eq_ok_iff.2 ⟨hr, hg⟩, rfl⟩
  · intro hx
    obtain ⟨l, n, h, hn⟩ := hx
    obtain ⟨hr, hg⟩ := FileSystem.look_follow_eq_ok_iff.1 h
    cases n with
    | file mode content => exact ⟨l, mode, content, hr, hg⟩
    | _ => simp [Node.isFile] at hn

theorem realDir_of_visited (h : fs.look .follow root = .ok (r, d)) {v : Visit Unit}
    {up : List (Visit Unit)} (hv : Visited fs false Guard.open () root v up) :
    RealDir fs.tree r v.names v.location := by
  induction hv with
  | @root r' d' top h' _ _ =>
    cases h.symm.trans h'
    exact .root
  | @entry v up name n d l hv hg hk hs hl ih =>
    have hn : n.isDir = true :=
      (plainKind_eq_directory_iff.1 (kind_eq_directory_iff.1 hk).1).resolve_right (by simp)
    cases n with
    | dir mode =>
      obtain rfl := (isDir_of_kind hv.reaches.1 hg hk hl).2 rfl
      exact .sub ih hg
    | _ => simp [Node.isDir] at hn

theorem visited_of_realDir (h : fs.look .follow root = .ok (r, d)) (hd : d.isDir = true)
    (hok : ∀ v up w, Visited fs false Guard.open () root v up →
      ¬ Emits fs false Guard.open root v up (.error w))
    {ns : List Name} {l : Location} (hl : RealDir fs.tree r ns l) :
    ∃ v up, Visited fs false Guard.open () root v up ∧ v.names = ns ∧ v.location = l := by
  induction hl with
  | root =>
    obtain ⟨v, hv, hns, hloc⟩ := exists_visited_root h hd
    exact ⟨v, [], hv, hns, hloc⟩
  | @sub ns l name mode _ hg ih =>
    obtain ⟨v, up, hv, rfl, rfl⟩ := ih
    have hk : kind fs Guard.open false ((v :: up).map (Visit.ancestor root)) (v.child root name)
        (.dir mode) = .directory := rfl
    cases hc : fs.look .follow (v.child root name) with
    | error f => exact (hok _ _ _ hv (.closed hg hk rfl hc)).elim
    | ok x =>
      obtain ⟨l', d'⟩ := x
      obtain rfl := (isDir_of_kind hv.reaches.1 hg hk hc).2 rfl
      exact ⟨_, _, .entry hv hg hk rfl hc, rfl, rfl⟩

theorem too_long_of_emits (h : fs.look .follow root = .ok (r, d)) {v : Visit Unit}
    {up : List (Visit Unit)} {w : WalkFault} (hv : Visited fs false Guard.open () root v up)
    (he : Emits fs false Guard.open root v up (.error w)) :
    ∃ ns l, RealDir fs.tree r ns l ∧ pathLimit ≤ (root.joinAll ns).bytes.length ∧
      w = .file (root.joinAll ns) .nameTooLong := by
  cases he with
  | broken hg hk => simp [plainKind_eq_broken_iff] at hk
  | @closed name n f hg hk hs hl =>
    have hn : n.isDir = true :=
      (plainKind_eq_directory_iff.1 (kind_eq_directory_iff.1 hk).1).resolve_right (by simp)
    cases n with
    | dir mode =>
      obtain ⟨hlong, rfl⟩ := FileSystem.too_long_of_look_join hv.reaches.1 hg rfl hl
      refine ⟨v.names ++ [name], _, .sub (realDir_of_visited h hv) hg, ?_, ?_⟩
      · rwa [← child_eq]
      · rw [← child_eq]
    | _ => simp [Node.isDir] at hn

end Walk

namespace Manifest

variable {fs : FileSystem} {job : Job} {r : Location} {mode : Nat}

theorem mem_plain_found_iff (h : fs.look .follow job.root = .ok (r, .dir mode))
    {found : List (List Name)}
    (hf : Walk.found fs false Guard.open (pathLimit + 1) [] () job.root = found.map .ok)
    (ns : List Name) : ns ∈ found.filter (accepted job.allowed) ↔
      ListedPlainly fs job.root job.allowed r ns := by
  obtain ⟨hok, hmem⟩ := Walk.emits_of_found h rfl hf
  rw [List.mem_filter]
  constructor
  · intro hx
    obtain ⟨hns, ha⟩ := hx
    obtain ⟨v, up, hv, he⟩ := (hmem ns).1 hns
    cases he with
    | @regular name n hg hk _ =>
      refine ⟨v.names, name, v.location, n, rfl, Walk.realDir_of_visited h hv, hg, ?_, ?_⟩
      · rw [← Walk.child_eq]
        rcases Walk.kind_eq_regular_iff.1 hk with hn | ⟨hn, hl⟩
        · exact .inl hn
        · exact .inr ⟨hn, Walk.reachesFile_iff.2 hl⟩
      · simpa [accepted] using ha
  · intro hlisted
    obtain ⟨dirs, name, l, n, rfl, hdir, hg, hn, ha⟩ := hlisted
    obtain ⟨v, up, hv, rfl, rfl⟩ := Walk.visited_of_realDir h rfl hok hdir
    have hk : Walk.kind fs Guard.open false ((v :: up).map (Walk.Visit.ancestor job.root))
        (v.child job.root name) n = .regular := by
      refine Walk.kind_eq_regular_iff.2 (hn.imp_right fun hl => ⟨hl.1, ?_⟩)
      have hr := hl.2
      rw [← Walk.child_eq] at hr
      exact Walk.reachesFile_iff.1 hr
    exact ⟨(hmem _).2 ⟨v, up, hv, .regular hg hk rfl⟩, by simpa [accepted] using ha⟩

theorem short_of_collect_eq_ok (hig : job.respectIgnore = false) (hfl : job.followLinks = false)
    (h : fs.look .follow job.root = .ok (r, .dir mode)) {es : List String}
    (hc : (collect fs job).result = .ok es) {ns : List Name} {l : Location}
    (hl : RealDir fs.tree r ns l) : (job.root.joinAll ns).bytes.length < pathLimit := by
  rcases collect_plain hig h rfl with ⟨found, hf, -⟩ | ⟨w, -, hw⟩
  · rw [hfl] at hf
    obtain ⟨hok, -⟩ := Walk.emits_of_found h rfl hf
    obtain ⟨v, up, hv, rfl, rfl⟩ := Walk.visited_of_realDir h rfl hok hl
    exact hv.reaches.1.length_lt
  · rw [hc] at hw
    cases hw

/-- Without followed links a listing succeeds exactly if no directory below the root has a path
that is too long, and then it names each file that it should name exactly once. -/
theorem collect_plain_exact (hig : job.respectIgnore = false) (hfl : job.followLinks = false)
    (h : fs.look .follow job.root = .ok (r, .dir mode)) :
    ((∃ es, (collect fs job).result = .ok es) ↔
      ∀ ns l, RealDir fs.tree r ns l → (job.root.joinAll ns).bytes.length < pathLimit) ∧
    (∀ es, (collect fs job).result = .ok es → ∃ found : List (List Name), found.Nodup ∧
      (∀ ns, ns ∈ found ↔ ListedPlainly fs job.root job.allowed r ns) ∧
      es = found.map Path.entryText) ∧
    ∀ f, (collect fs job).result = .error f → ∃ ns l, RealDir fs.tree r ns l ∧
      f = .walk job.root (.file (job.root.joinAll ns) .nameTooLong) := by
  refine ⟨⟨?_, ?_⟩, ?_, ?_⟩
  · rintro ⟨es, hc⟩ ns l hl
    exact short_of_collect_eq_ok hig hfl h hc hl
  · intro hshort
    rcases collect_plain hig h rfl with ⟨found, -, hc⟩ | ⟨w, hw, -⟩
    · exact ⟨_, hc⟩
    · rw [hfl] at hw
      obtain ⟨v, up, hv, he⟩ := (Walk.mem_found_iff h rfl).1 hw
      obtain ⟨ns, l, hl, hlong, -⟩ := Walk.too_long_of_emits h hv he
      have hlt := hshort ns l hl
      omega
  · intro es hes
    rcases collect_plain hig h rfl with ⟨found, hf, hc⟩ | ⟨w, -, hc⟩
    · rw [hfl] at hf
      rw [hes] at hc
      refine ⟨found.filter (accepted job.allowed), ?_, mem_plain_found_iff h hf, Except.ok.inj hc⟩
      have hd := Walk.found_distinct fs false Guard.open (pathLimit + 1) [] () job.root
      rw [hf] at hd
      exact (Walk.Distinct.nodup hd).sublist List.filter_sublist
    · rw [hes] at hc
      cases hc
  · intro f hf
    rcases collect_plain hig h rfl with ⟨found, -, hc⟩ | ⟨w, hw, hc⟩
    · rw [hf] at hc
      cases hc
    · rw [hfl] at hw
      obtain ⟨v, up, hv, he⟩ := (Walk.mem_found_iff h rfl).1 hw
      obtain ⟨ns, l, hl, -, rfl⟩ := Walk.too_long_of_emits h hv he
      rw [hf] at hc
      exact ⟨ns, l, hl, Except.error.inj hc⟩

/-- A file behind a link behind a link, beside a hidden file, a link that leads nowhere, one that
leads to itself, and a directory with the name of a picture. -/
def linksTree : FileTree :=
  let a : Name := [0x61]
  let png := fun b : UInt8 => [b, 0x2E, 0x70, 0x6E, 0x67]
  ((((((((FileTree.empty.put [a] (.dir 0o755)).put [png 0x78, a] (.file 0o644 [])).put
    [png 0x2E, a] (.file 0o644 [])).put [png 0x6C] (.link ⟨[0x6D]⟩)).put
    [[0x6D]] (.link ⟨[0x61, 0x2F] ++ png 0x78⟩)).put [png 0x67] (.link ⟨[0x6E]⟩)).put
    [png 0x6F] (.link ⟨png 0x6F⟩)).put [png 0x64] (.dir 0o755))

theorem collect_plain_exact_links :
    let fs : FileSystem := { tree := linksTree }
    let job : Job := { root := ⟨[0x2E]⟩ }
    fs.look .follow job.root = .ok ([], .dir 0o755) ∧
    (collect fs job).result = .ok ["a/..png", "a/x.png", "l.png"] ∧
    ∃ found : List (List Name), found.Nodup ∧
      (∀ ns, ns ∈ found ↔ ListedPlainly fs job.root job.allowed [] ns) ∧
      ["a/..png", "a/x.png", "l.png"] = found.map Path.entryText := by
  have hc : (collect { tree := linksTree } { root := ⟨[0x2E]⟩ }).result =
      .ok ["a/..png", "a/x.png", "l.png"] := by cbv
  exact ⟨rfl, hc, (collect_plain_exact rfl rfl rfl).2.1 _ hc⟩

theorem collect_dotted_ne_ok (hig : job.respectIgnore = false) {k : Nat}
    (hroot : job.root = FileSystem.dotted k) (hk : 0 < k) (hlen : 2 * k < pathLimit) {name : Name}
    (hcwd : fs.tree.get? fs.cwd = some (.dir mode))
    (hg : fs.tree.get? (name :: fs.cwd) = some (.dir mode))
    (hlong : pathLimit ≤ 2 * k + name.length) (es : List String) :
    (collect fs job).result ≠ .ok es := by
  intro hes
  have hr : fs.Reaches job.root fs.cwd :=
    hroot ▸ FileSystem.reaches_dotted hk hlen (FileTree.isDir_iff.2 ⟨mode, hcwd⟩)
  have h := FileSystem.look_follow_eq_ok_iff.2 ⟨hr, hcwd⟩
  rcases collect_plain hig h rfl with ⟨found, hf, -⟩ | ⟨w, -, hw⟩
  · obtain ⟨hok, -⟩ := Walk.emits_of_found h rfl hf
    obtain ⟨v, hv, hns, hloc⟩ := Walk.exists_visited_root h rfl
    have hlt := Walk.length_child_lt hok hv (hloc ▸ hg)
    have hle := Path.length_join (p := job.root) (n := name)
    have hd := FileSystem.length_dotted k
    rw [← hroot] at hd
    simp only [Walk.Visit.child, hns, Path.joinAll_nil] at hlt
    omega
  · rw [hes] at hw
    cases hw

def longNameTree : FileTree :=
  let d : Name := List.replicate 20 0x64
  (FileTree.empty.put [d] (.dir 0o755)).put [[0x78, 0x2E, 0x70, 0x6E, 0x67], d] (.file 0o644 [])

theorem look_dotted_longNameTree : ({ tree := longNameTree } : FileSystem).look .follow
    (FileSystem.dotted 2040) = .ok ([], .dir 0o755) := by
  have hr : FileSystem.Reaches { tree := longNameTree } (FileSystem.dotted 2040) [] :=
    FileSystem.reaches_dotted (by decide) (by decide) rfl
  exact FileSystem.look_follow_eq_ok_iff.2 ⟨hr, FileTree.get?_nil _⟩

/-- Below a root of many dots that name makes too long a path, and nothing is listed. -/
theorem collect_plain_refused :
    let fs : FileSystem := { tree := longNameTree }
    let job : Job := { root := FileSystem.dotted 2040 }
    fs.look .follow job.root = .ok ([], .dir 0o755) ∧
    ∀ es, (collect fs job).result ≠ .ok es := by
  have hg : longNameTree.get? [List.replicate 20 0x64] = some (.dir 0o755) := rfl
  exact ⟨look_dotted_longNameTree, collect_dotted_ne_ok rfl rfl (by decide) (by decide)
    (FileTree.get?_nil _) hg (by decide)⟩

end Manifest

end ResourceManifest
