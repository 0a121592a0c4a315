import Mathlib.Data.List.Sort
import ResourceManifest.Proofs.Ignore.Silent
import ResourceManifest.Proofs.Ignore.Stricter
import ResourceManifest.Proofs.Manifest.Seen
import ResourceManifest.Proofs.Manifest.Within
import ResourceManifest.Proofs.Walk.Stricter

set_option autoImplicit false

namespace ResourceManifest

open ResourceManifest.Path

variable {fs fs' : FileSystem} {l r : Location} {mode : Nat} {c c' : Bytes} {line : String}
  {root : Path} {job : Job} {es es' : List String}

/-- Behind the lines of the file at `l`, or in a new file, there is one more. As it is read, without
byte order marks if it is the first one, it does not begin with an exclamation mark, and its pattern
is not too much for the matcher of the file. No settings are read from the file. -/
structure AddsLine (fs fs' : FileSystem) (l : Location) (mode : Nat) (c c' : Bytes)
    (line : String) : Prop extends fs.Rewrote fs' l mode c c' where
  lines : byteLines c' = byteLines c ++ [Utf8.encode line]
  excludes : (if c = [] then RuleFile.withoutOrderMarks line else line).toList.head? ≠ some '!'
  taken : RuleFile.IsTaken fs.ignoring.limit c'
  configs : ∀ p ∈ fs.ignoring.configs, ¬ fs'.Reaches p l

namespace AddsLine

theorem exists_rules_eq (h : AddsLine fs fs' l mode c c' line) : ∃ added,
    (RuleFile.readLines ⟨[]⟩ 1 (byteLines c')).rules =
      (RuleFile.readLines ⟨[]⟩ 1 (byteLines c)).rules ++ added ∧ ∀ r ∈ added, r.verdict = .skip := by
  have hmark : (if 1 + (byteLines c).length = 1 then RuleFile.withoutOrderMarks line
      else line).toList.head? ≠ some '!' := by
    have hfirst : 1 + (byteLines c).length = 1 ↔ c = [] := by
      refine ⟨fun hlen => Decidable.not_not.1 fun hne => ?_, ?_⟩
      · obtain ⟨x, xs, hx⟩ := exists_byteLines_eq_cons hne
        simp [hx] at hlen
      · rintro rfl
        rfl
    simp only [hfirst]
    exact h.excludes
  rw [h.lines]
  exact RuleFile.rules_readLines_concat ⟨[]⟩ 1 (byteLines c) hmark

theorem isTaken_before (h : AddsLine fs fs' l mode c c' line) :
    RuleFile.IsTaken fs.ignoring.limit c := by
  obtain ⟨added, hrules, -⟩ := h.exists_rules_eq
  refine fs.ignoring.limit.sublist ?_ h.taken
  rw [hrules, List.map_append]
  exact List.sublist_append_left _ _

theorem rules_load (h : AddsLine fs fs' l mode c c' line) (dir file : Path) :
    (RuleFile.load fs dir file).1.AddsSkips (RuleFile.load fs' dir file).1 := by
  rcases h.contents_cases file with hsame | ⟨hr', hr⟩
  · rw [RuleFile.load_congr h.ignoring.symm hsame]
    exact .refl _
  · obtain ⟨added, hrules, hskip⟩ := h.exists_rules_eq
    refine ⟨by simp, added, ?_, hskip⟩
    have hold : RuleFile.rulesOf fs.ignoring.limit (fs.contents file) =
        (RuleFile.readLines ⟨[]⟩ 1 (byteLines c)).rules := by
      rcases hr with hr | ⟨rfl, f, hr⟩
      · rw [hr]
        exact if_pos h.isTaken_before
      · rw [hr]
        rfl
    rw [RuleFile.load_rules, RuleFile.load_rules, h.ignoring, hold, ← hrules, hr']
    exact if_pos h.taken

theorem rules_everywhere (h : AddsLine fs fs' l mode c c' line) :
    (IgnoreSettings.rules fs).AddsSkips (IgnoreSettings.rules fs') := by
  have hconfigs : ∀ p ∈ fs.ignoring.configs, SameSuccess (fs.contents p) (fs'.contents p) :=
    fun p hp => (FileSystem.contents_of_sameSuccess (h.look_of_not_reaches (h.configs p hp))).symm
  unfold IgnoreSettings.rules
  rw [h.ignoring, h.cwd, ← IgnoreSettings.excludesFile_congr h.ignoring hconfigs]
  cases IgnoreSettings.excludesFile fs fs.ignoring.configs with
  | error p => exact .refl _
  | ok file? =>
    cases file? with
    | none => exact .refl _
    | some file => exact h.rules_load _ file

theorem load (h : AddsLine fs fs' l mode c c' line) (dir : Path) :
    (IgnoreLevel.load fs dir).1.AddsSkips (IgnoreLevel.load fs' dir).1 :=
  fun k => h.rules_load dir (IgnoreKind.file dir k)

theorem tightens (h : AddsLine fs fs' l mode c c' line) :
    Walk.Tightens fs fs' IgnoreState.guard IgnoreState.AddsSkips where
  ends p hp := by
    simp only [IgnoreState.guard, IgnoreKind.endless?_eq_none_iff] at hp ⊢
    intro k hk
    rcases h.contents_cases (IgnoreKind.file p k) with hsame | ⟨-, hr | ⟨-, f, hr⟩⟩
    · exact hp k ((hsame none).2 hk)
    · cases hk.symm.trans hr
    · cases hk.symm.trans hr
  enter p hs := ⟨hs.root, hs.base, .cons (h.load p) hs.walked, hs.around, hs.everywhere⟩
  skips hs hskip := hs.skips hskip

theorem atRoot (h : AddsLine fs fs' l mode c c' line) {d d' : Nat}
    (hl : fs.look .follow root = .ok (r, .dir d)) (hl' : fs'.look .follow root = .ok (r, .dir d')) :
    (IgnoreState.atRoot fs root).1.AddsSkips (IgnoreState.atRoot fs' root).1 := by
  simp only [IgnoreState.atRoot, IgnoreState.surroundings_of_dir hl,
    IgnoreState.surroundings_of_dir hl', List.map_map]
  refine ⟨rfl, rfl, .nil, ?_, h.rules_everywhere⟩
  exact List.forall₂_map_left_iff.2 (List.forall₂_map_right_iff.2
    (List.forall₂_same.2 fun m _ => h.load _))

end AddsLine

theorem addsLine_append (hplace : fs.tree.IsPlace l)
    (hbefore : fs.tree.get? l = some (.file mode c) ∨ fs.tree.get? l = none ∧ c = [])
    (hreturn : c.getLast? ≠ some 0x0D) (hx : Utf8.encode line ≠ [])
    (hfeed : 0x0A ∉ Utf8.encode line) (hend : (Utf8.encode line).getLast? ≠ some 0x0D)
    (hmark : (if c = [] then RuleFile.withoutOrderMarks line else line).toList.head? ≠ some '!')
    (htaken : RuleFile.IsTaken fs.ignoring.limit (appendLine c (Utf8.encode line)))
    (hconfigs : ∀ p ∈ fs.ignoring.configs,
      ¬ (fs.put l (.file mode (appendLine c (Utf8.encode line)))).Reaches p l) :
    AddsLine fs (fs.put l (.file mode (appendLine c (Utf8.encode line)))) l mode c
      (appendLine c (Utf8.encode line)) line where
  toRewrote := FileSystem.rewrote_put hplace _ hbefore
  lines := byteLines_appendLine hreturn hx hfeed hend
  excludes := hmark
  taken := htaken
  configs := hconfigs

namespace Manifest

theorem exists_found_of_collect (hig : job.respectIgnore = true)
    (hstd : Walk.isStandardInput job.root = false) (hes : (collect fs job).result = .ok es) :
    ∃ (r : Location) (mode : Nat) (names : List (List Name)),
      fs.look .follow job.root = .ok (r, .dir mode) ∧
      Walk.found fs job.followLinks IgnoreState.guard (pathLimit + 1) []
        (IgnoreState.atRoot fs job.root).1 job.root = names.map .ok ∧
      findFiles fs job.root job.followLinks true =
        names.map (fun ns => .ok (job.root.joinAll ns)) ∧
      es = (names.filter (accepted job.allowed)).map entryText := by
  obtain ⟨r, mode, hl⟩ := exists_look_of_collect hes
  have hop := opening_of_collect hig hstd hl hes
  rcases collect_ignoring_of_begun hig hop hl with ⟨names, hf, hc⟩ | ⟨w, -, hc⟩
  · exact ⟨r, mode, names, hl, hf, findFiles_ignoring_of_found hop hl hf,
      Except.ok.inj (hes.symm.trans hc)⟩
  · cases hes.symm.trans hc

theorem not_accepted_of_ignoreName {allowed : List String} {ns : List Name} {k : IgnoreKind}
    (h : ns.getLast? = k.path.names.getLast?) : accepted allowed ns = false := by
  have hnone : ∀ n ∈ k.path.names.getLast?, extension? (Utf8.decodeLossy n) = none := by
    cases k <;> decide +kernel
  rw [accepted, h]
  cases hlast : k.path.names.getLast? with
  | none => rfl
  | some n => simp [isAllowed, hnone n hlast]

theorem pairwise_of_found {followLinks : Bool} {s : IgnoreState} {names : List (List Name)}
    (hf : Walk.found fs followLinks IgnoreState.guard (pathLimit + 1) [] s root = names.map .ok) :
    names.Pairwise (· < ·) := by
  have ha := Walk.found_ascending fs followLinks IgnoreState.guard (pathLimit + 1) [] s root
  rw [hf] at ha
  exact (List.pairwise_map.1 ha).imp fun h => h _ _ rfl rfl

theorem sublist_of_found {names names' : List (List Name)} (h : names.Pairwise (· < ·))
    (h' : names'.Pairwise (· < ·)) {p q : List Name → Bool}
    (hmem : ∀ ns ∈ names', p ns = true → ns ∈ names ∧ q ns = true) :
    (names'.filter p).Sublist (names.filter q) := by
  refine List.sublist_of_subperm_of_pairwise (List.subperm_of_subset (h'.filter p).nodup ?_)
    (h'.filter p) (h.filter q)
  intro ns hns
  obtain ⟨hns, hp⟩ := List.mem_filter.1 hns
  exact List.mem_filter.2 (hmem ns hns hp)

theorem collect_of_standardInput (hig : job.respectIgnore = true)
    (hstd : Walk.isStandardInput job.root = true) (hes : (collect fs job).result = .ok es) :
    findFiles fs job.root job.followLinks true = [] ∧ es = [] := by
  have hbefore : (Walk.opening fs job.root).1 = [] := by
    by_contra hne
    obtain ⟨f, hf⟩ := exists_error_of_opening hig hne
    cases hes.symm.trans hf
  have hop : Walk.opening fs job.root = ([], none) := by
    rcases Walk.opening_cases fs job.root with ⟨hno, -⟩ | ⟨-, hop⟩ | ⟨before, file, -, -, hop⟩
    · cases hstd.symm.trans hno
    · exact hop
    · simp [hop] at hbefore
  have hnone : findFiles fs job.root job.followLinks true = [] := by
    simp [findFiles, Walk.unignored, hop]
  obtain ⟨r, d, hl⟩ := exists_look_of_collect hes
  simp only [collect, checkRoot_of_dir hl rfl, hig, hnone, entries, Except.ok.injEq] at hes
  exact ⟨hnone, hes.symm⟩

section LineAdded

variable {allowed : List String} {ns : List Name} {k : IgnoreKind} {followLinks : Bool}

theorem mem_found_of_line_added (h : AddsLine fs fs' l mode c c' line)
    (hk : l.head? = k.path.names.getLast?) {d d' : Nat}
    (hl : fs.look .follow root = .ok (r, .dir d)) (hl' : fs'.look .follow root = .ok (r, .dir d'))
    (ha : accepted allowed ns = true)
    (hx : .ok ns ∈ Walk.found fs' followLinks IgnoreState.guard (pathLimit + 1) []
      (IgnoreState.atRoot fs' root).1 root) :
    .ok ns ∈ Walk.found fs followLinks IgnoreState.guard (pathLimit + 1) []
        (IgnoreState.atRoot fs root).1 root ∨
      fs.tree.get? l = none ∧ fs'.leadsTo l (root.joinAll ns) = true := by
  rcases Walk.mem_found_of_rewrote h.toRewrote h.tightens (h.atRoot hl hl') hl rfl hl' rfl hx with
    hold | ⟨hnew, hlast | hr⟩
  · exact .inl hold
  · rw [not_accepted_of_ignoreName (hlast.symm.trans hk)] at ha
    cases ha
  · exact .inr ⟨hnew, FileSystem.leadsTo_iff.2 hr⟩

theorem endsInLink_of_accepted {s : IgnoreState} {d : Nat}
    (hk : l.head? = k.path.names.getLast?) (hl : fs.look .follow root = .ok (r, .dir d))
    (ha : accepted allowed ns = true)
    (hx : .ok ns ∈ Walk.found fs followLinks IgnoreState.guard (pathLimit + 1) [] s root)
    (hlead : fs.leadsTo l (root.joinAll ns) = true) : Walk.EndsInLink fs root ns := by
  refine (Walk.head?_or_endsInLink hl rfl hx (FileSystem.leadsTo_iff.1 hlead)).resolve_left
    fun hlast => ?_
  rw [not_accepted_of_ignoreName (hlast.symm.trans hk)] at ha
  cases ha

end LineAdded

/-- When a line that excludes has been added to an ignore file nothing is listed that was not listed
before. When the file is a new one, there may be links that led nowhere before and lead to it now;
all else that is listed was listed before. -/
theorem collect_of_line_added (h : AddsLine fs fs' l mode c c' line)
    (hname : ∃ k : IgnoreKind, l.head? = k.path.names.getLast?) (hig : job.respectIgnore = true)
    (hes : (collect fs job).result = .ok es) (hes' : (collect fs' job).result = .ok es') :
    ((∃ n, fs.tree.get? l = some n) → es'.Sublist es) ∧
    ∃ found found' : List (List Name),
      findFiles fs job.root job.followLinks true =
        found.map (fun ns => .ok (job.root.joinAll ns)) ∧
      findFiles fs' job.root job.followLinks true =
        found'.map (fun ns => .ok (job.root.joinAll ns)) ∧
      es = (found.filter (accepted job.allowed)).map entryText ∧
      es' = (found'.filter (accepted job.allowed)).map entryText ∧
      (found'.filter fun ns => accepted job.allowed ns &&
        !fs'.leadsTo l (job.root.joinAll ns)).Sublist (found.filter (accepted job.allowed)) ∧
      ∀ ns ∈ found', accepted job.allowed ns = true →
        fs'.leadsTo l (job.root.joinAll ns) = true → Walk.EndsInLink fs' job.root ns := by
  obtain ⟨k, hk⟩ := hname
  cases hstd : Walk.isStandardInput job.root with
  | true =>
    obtain ⟨hnone, rfl⟩ := collect_of_standardInput hig hstd hes
    obtain ⟨hnone', rfl⟩ := collect_of_standardInput hig hstd hes'
    exact ⟨fun _ => .slnil, [], [], hnone, hnone', rfl, rfl, .slnil, by simp⟩
  | false =>
    obtain ⟨r, d, found, hl, hf, hfind, rfl⟩ := exists_found_of_collect hig hstd hes
    obtain ⟨r', d', found', hl', hf', hfind', rfl⟩ := exists_found_of_collect hig hstd hes'
    -- The root is the same directory in both, as it is not the ignore file.
    have hne := h.ne_of_isDir (FileSystem.look_follow_eq_ok_iff.1 hl').2 rfl
    obtain ⟨rfl, -⟩ := Prod.mk.inj (Except.ok.inj (hl.symm.trans ((h.look_iff hne).1 hl')))
    have hx : ∀ ns ∈ found', .ok ns ∈ Walk.found fs' job.followLinks IgnoreState.guard
        (pathLimit + 1) [] (IgnoreState.atRoot fs' job.root).1 job.root :=
      fun ns hns => hf' ▸ List.mem_map_of_mem hns
    have hmem : ∀ ns ∈ found', accepted job.allowed ns = true → ns ∈ found ∨
        fs.tree.get? l = none ∧ fs'.leadsTo l (job.root.joinAll ns) = true := by
      intro ns hns ha
      refine (mem_found_of_line_added h hk hl hl' ha (hx ns hns)).imp_left fun hold => ?_
      rw [hf] at hold
      simpa using hold
    have hasc := pairwise_of_found hf
    have hasc' := pairwise_of_found hf'
    refine ⟨fun ⟨n, hn⟩ => ?_, found, found', hfind, hfind', rfl, rfl, ?_,
      fun ns hns ha => endsInLink_of_accepted hk hl' ha (hx ns hns)⟩
    · refine (sublist_of_found hasc hasc' fun ns hns ha => ⟨?_, ha⟩).map entryText
      refine (hmem ns hns ha).resolve_right fun hnew => ?_
      cases hn.symm.trans hnew.1
    · refine sublist_of_found hasc hasc' fun ns hns hp => ?_
      obtain ⟨ha, hlead⟩ := Bool.and_eq_true_iff.1 hp
      refine ⟨(hmem ns hns ha).resolve_right fun hnew => ?_, ha⟩
      rw [hnew.2] at hlead
      cases hlead

/-- Two pictures in a directory. From the top one of them is excluded, and in the directory it is not
after all, in a line that does not end. -/
def reopenedTree : FileTree :=
  let d : Name := [0x64]
  let png := fun b : UInt8 => [b, 0x2E, 0x70, 0x6E, 0x67]
  let rules := IgnoreKind.ignore.entry
  ((((FileTree.empty.put [d] (.dir 0o755)).put [png 0x78, d] (.file 0o644 [])).put [png 0x79, d]
    (.file 0o644 [])).put [rules] (.file 0o644 (Utf8.encode "x.png\n"))).put [rules, d]
    (.file 0o644 (Utf8.encode "!x.png"))

def expectantTree : FileTree :=
  let png := fun b : UInt8 => [b, 0x2E, 0x70, 0x6E, 0x67]
  ((FileTree.empty.put [png 0x78] (.file 0o644 [])).put [png 0x79] (.file 0o644 [])).put [png 0x61]
    (.link ⟨IgnoreKind.gitignore.entry⟩)

theorem collect_of_line_added_reopened :
    let job : Job := { root := ⟨[dot]⟩, respectIgnore := true }
    (let fs : FileSystem := { tree := reopenedTree }
    let fs' := fs.put [IgnoreKind.ignore.entry, [0x64]]
      (.file 0o644 (appendLine (Utf8.encode "!x.png") (Utf8.encode "x*")))
    (collect fs job).result = .ok ["d/x.png", "d/y.png"] ∧
    (collect fs' job).result = .ok ["d/y.png"] ∧
    ["d/y.png"].Sublist ["d/x.png", "d/y.png"]) ∧
    let fs : FileSystem := { tree := expectantTree }
    let l : Location := [IgnoreKind.gitignore.entry]
    let fs' := fs.put l (.file 0o644 (appendLine [] (Utf8.encode "x.png")))
    (collect fs job).result = .ok ["x.png", "y.png"] ∧
    (collect fs' job).result = .ok ["a.png", "y.png"] ∧
    ∃ found found' : List (List Name),
      findFiles fs job.root false true = found.map (fun ns => .ok (job.root.joinAll ns)) ∧
      findFiles fs' job.root false true = found'.map (fun ns => .ok (job.root.joinAll ns)) ∧
      ["x.png", "y.png"] = (found.filter (accepted job.allowed)).map entryText ∧
      ["a.png", "y.png"] = (found'.filter (accepted job.allowed)).map entryText ∧
      (found'.filter fun ns => accepted job.allowed ns &&
        !fs'.leadsTo l (job.root.joinAll ns)).Sublist (found.filter (accepted job.allowed)) ∧
      ∀ ns ∈ found', accepted job.allowed ns = true →
        fs'.leadsTo l (job.root.joinAll ns) = true → Walk.EndsInLink fs' job.root ns := by
  intro job
  constructor
  · intro fs fs'
    have hg : fs.tree.get? [IgnoreKind.ignore.entry, [0x64]] =
        some (.file 0o644 (Utf8.encode "!x.png")) := by decide +kernel
    have hplace : fs.tree.IsPlace [IgnoreKind.ignore.entry, [0x64]] :=
      FileTree.isPlace_cons (by decide +kernel) (by decide) (FileTree.isDir_of_get? hg)
    have hadds : AddsLine fs fs' _ _ _ _ "x*" := addsLine_append hplace (.inl hg) (by decide +kernel)
      (by decide +kernel) (by decide +kernel) (by decide +kernel) (by decide +kernel)
      (by decide +kernel) fun p hp => absurd hp (by simp [fs])
    have hc : (collect fs job).result = .ok ["d/x.png", "d/y.png"] := by decide +kernel
    have hc' : (collect fs' job).result = .ok ["d/y.png"] := by decide +kernel
    exact ⟨hc, hc', (collect_of_line_added hadds ⟨.ignore, by decide +kernel⟩ rfl hc hc').1 ⟨_, hg⟩⟩
  · intro fs l fs'
    have hg : fs.tree.get? l = none := by decide +kernel
    have hplace : fs.tree.IsPlace l :=
      FileTree.isPlace_cons (by decide +kernel) (by decide) (by decide +kernel)
    have hadds : AddsLine fs fs' l 0o644 [] _ "x.png" := addsLine_append hplace (.inr ⟨hg, rfl⟩)
      (by decide) (by decide +kernel) (by decide +kernel) (by decide +kernel) (by decide +kernel)
      (by decide +kernel) fun p hp => absurd hp (by simp [fs])
    have hc : (collect fs job).result = .ok ["x.png", "y.png"] := by decide +kernel
    have hc' : (collect fs' job).result = .ok ["a.png", "y.png"] := by decide +kernel
    exact ⟨hc, hc', (collect_of_line_added hadds ⟨.gitignore, by decide +kernel⟩ rfl hc hc').2⟩

def dependentTree : FileTree :=
  FileTree.empty.put [[0x61, 0x2E, 0x70, 0x6E, 0x67]] (.link ⟨IgnoreKind.ignore.entry⟩)

def excludedTree : FileTree :=
  (FileTree.empty.put [[0x78, 0x2E, 0x70, 0x6E, 0x67]] (.file 0o644 [])).put
    [IgnoreKind.gitignore.entry] (.file 0o644 (Utf8.encode "x.png\n"))

/-- A picture in a directory with a backslash at the end of its name, which is excluded in a line
that ends in an escape, a blank and a carriage return, and no line feed. -/
def unendedTree : FileTree :=
  ((FileTree.empty.put [[0x64, 0x5C]] (.dir 0o755)).put [[0x78, 0x2E, 0x70, 0x6E, 0x67], [0x64, 0x5C]]
    (.file 0o644 [])).put [IgnoreKind.ignore.entry] (.file 0o644 (Utf8.encode "d\\\\ \r"))

/-- An entry is added when a link leads to the new file, when an exclamation mark stands behind a
byte order mark in its first line, and when the line before was another one without its end. -/
theorem collect_gains_by_line :
    let job : Job := { root := ⟨[dot]⟩, respectIgnore := true }
    let rules : Location := [IgnoreKind.ignore.entry]
    (let fs : FileSystem := { tree := dependentTree }
    (collect fs job).result = .ok [] ∧
    (collect (fs.put rules (.file 0o644 (Utf8.encode "zzz\n"))) job).result = .ok ["a.png"]) ∧
    (let fs : FileSystem := { tree := excludedTree }
    ("\uFEFF!x.png\n" : String).toList.head? ≠ some '!' ∧ (collect fs job).result = .ok [] ∧
    (collect (fs.put rules (.file 0o644 (Utf8.encode "\uFEFF!x.png\n"))) job).result =
      .ok ["x.png"]) ∧
    let fs : FileSystem := { tree := unendedTree }
    (collect fs job).result = .ok [] ∧
    (collect (fs.put rules (.file 0o644 (Utf8.encode "d\\\\ \r\nzzz\n"))) job).result =
      .ok ["d\\/x.png"] := by
  decide +kernel

end Manifest

end ResourceManifest
