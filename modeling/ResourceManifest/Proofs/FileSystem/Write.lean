import ResourceManifest.Proofs.FileSystem.Replace

/-!
What stands on the disk after a file has been written, and that nothing else has changed. To write
over a file changes the one that the path leads to; to replace it changes the entry that the path
names. Where no link and nothing special is in that place, the two come to the same.
-/

set_option autoImplicit false

namespace ResourceManifest

/-- A pipe or a device: what is written there is not kept. -/
def Node.isSpecial : Node → Bool
  | .fifo _ => true
  | .device _ _ => true
  | _ => false

theorem Node.isFile_of_not {n : Node} (hdir : n.isDir = false) (hlink : n.isLink = false)
    (hspecial : n.isSpecial = false) : n.isFile = true := by
  cases n with
  | file mode content => rfl
  | dir mode => cases hdir
  | link target => cases hlink
  | fifo mode => cases hspecial
  | device kind mode => cases hspecial

namespace FileSystem

variable {fs fs' : FileSystem} {p : Path} {l : Location} {content : Bytes} {mode : Nat}

/-- A path leads to a file, or to a place for one. -/
def OpensFile (fs : FileSystem) (p : Path) (l : Location) : Prop :=
  fs.locate .create p = .ok l ∧ ∀ n, fs.tree.get? l = some n → n.isFile = true

/-- One file has been written, and all else is as before. -/
structure Wrote (fs fs' : FileSystem) (l : Location) (mode : Nat) (content : Bytes) : Prop where
  written : fs'.tree.get? l = some (.file mode content)
  others : ∀ l', l' ≠ l → fs'.tree.get? l' = fs.tree.get? l'
  cwd : fs'.cwd = fs.cwd
  umask : fs'.umask = fs.umask
  naming : fs'.naming = fs.naming
  ignoring : fs'.ignoring = fs.ignoring

theorem wrote_put (h : fs.tree.IsPlace l) (mode : Nat) (content : Bytes) :
    fs.Wrote (fs.put l (.file mode content)) l mode content where
  written := h.get?_put_self _
  others _ hne := h.get?_put_of_ne _ hne
  cwd := rfl
  umask := rfl
  naming := rfl
  ignoring := rfl

theorem isPlace_of_locate_create (h : fs.locate .create p = .ok l) : fs.tree.IsPlace l := by
  obtain ⟨-, k, -, hl⟩ := locate_create_eq_ok_iff.1 h
  exact hl.isPlace

theorem NamesPlace.isPlace (h : fs.NamesPlace p l) : fs.tree.IsPlace l := by
  obtain ⟨before, last, parent, hn, rfl⟩ := exists_namesEntry h.1
  exact hn.isPlace h.2.2

theorem read_eq_ok_iff : fs.read p = .ok content ↔ fs.contents p = .ok (some content) := by
  unfold read
  cases fs.contents p with
  | error f => simp [bind, Except.bind]
  | ok c? => cases c? <;> simp [bind, Except.bind]

theorem contents_of_reaches (h : fs.Reaches p l)
    (hg : fs.tree.get? l = some (.file mode content)) : fs.contents p = .ok (some content) := by
  have hs := stat_eq_ok_iff.2 ⟨l, look_follow_eq_ok_iff.2 ⟨h, hg⟩⟩
  simp [contents, hs, bind, Except.bind]

theorem read_of_reaches (h : fs.Reaches p l) (hg : fs.tree.get? l = some (.file mode content)) :
    fs.read p = .ok content := read_eq_ok_iff.2 (contents_of_reaches h hg)

theorem Wrote.reaches (hw : fs.Wrote fs' l mode content) (h : fs.locate .create p = .ok l) :
    fs'.Reaches p l := by
  obtain ⟨hc, k, hk, hl⟩ := locate_create_eq_ok_iff.1 h
  obtain ⟨h₀, h₁, h₂⟩ := checkPath_eq_ok_iff.1 hc
  exact ⟨h₀, h₁, h₂, k, hk, start_congr hw.cwd p ▸ hl.leads hw.others hw.written rfl⟩

theorem stat_of_locate_create {n : Node} (h : fs.locate .create p = .ok l)
    (hg : fs.tree.get? l = some n) : fs.stat p = .ok n := by
  obtain ⟨hc, k, hk, hl⟩ := locate_create_eq_ok_iff.1 h
  obtain ⟨h₀, h₁, h₂⟩ := checkPath_eq_ok_iff.1 hc
  have hr : fs.Reaches p l := ⟨h₀, h₁, h₂, k, hk, hl.leads (fun _ _ => rfl) hg (hl.node n hg).1⟩
  exact stat_eq_ok_iff.2 ⟨l, look_follow_eq_ok_iff.2 ⟨hr, hg⟩⟩

theorem modeAt_of_get? {n : Node} (h : fs.locate .create p = .ok l)
    (hg : fs.tree.get? l = some n) : fs.modeAt p = n.mode := by
  rw [modeAt, stat_of_locate_create h hg]

theorem exists_stat_error_of_none (h : fs.locate .create p = .ok l) (hg : fs.tree.get? l = none) :
    ∃ f, fs.stat p = .error f := by
  cases hs : fs.stat p with
  | error f => exact ⟨f, rfl⟩
  | ok n =>
    -- A file put there would be reached, and what is reached now would be reached as well.
    exfalso
    obtain ⟨m, hlook⟩ := stat_eq_ok_iff.1 hs
    obtain ⟨hr, hm⟩ := look_follow_eq_ok_iff.1 hlook
    have hw := wrote_put (isPlace_of_locate_create h) 0 []
    have hsub : ∀ l' d, fs.tree.get? l' = some d →
        (fs.put l (.file 0 [])).tree.get? l' = some d := by
      intro l' d hd
      refine (hw.others l' fun he => ?_).trans hd
      rw [he, hg] at hd
      cases hd
    obtain rfl := (hr.mono hw.cwd hsub).deterministic (hw.reaches h)
    rw [hg] at hm
    cases hm

theorem modeAt_of_none (h : fs.locate .create p = .ok l) (hg : fs.tree.get? l = none) :
    fs.modeAt p = fs.newMode := by
  obtain ⟨f, hf⟩ := exists_stat_error_of_none h hg
  rw [modeAt, hf]

theorem overwrite_of_opensFile (h : fs.OpensFile p l) :
    fs.overwrite p content = .ok (fs.put l (.file (fs.modeAt p) content)) := by
  obtain ⟨hl, hf⟩ := h
  unfold overwrite
  simp only [hl, bind, Except.bind]
  cases hg : fs.tree.get? l with
  | none => rw [modeAt_of_none hl hg]
  | some n =>
    rw [modeAt_of_get? hl hg]
    have hfile := hf n hg
    cases n with
    | file mode old => rfl
    | _ => cases hfile

theorem overwrite_eq_ok (h : fs.overwrite p content = .ok fs') :
    (∃ l, fs.OpensFile p l ∧ fs' = fs.put l (.file (fs.modeAt p) content)) ∨
    (∃ l n, fs.locate .create p = .ok l ∧ fs.tree.get? l = some n ∧ n.isSpecial = true ∧
      fs' = fs) := by
  cases hl : fs.locate .create p with
  | error f => simp [overwrite, hl, bind, Except.bind] at h
  | ok l =>
    have hfile (hf : ∀ n, fs.tree.get? l = some n → n.isFile = true) :
        fs.OpensFile p l ∧ fs' = fs.put l (.file (fs.modeAt p) content) := by
      have ho : fs.overwrite p content = _ := overwrite_of_opensFile ⟨hl, hf⟩
      rw [h] at ho
      exact ⟨⟨hl, hf⟩, Except.ok.inj ho⟩
    cases hg : fs.tree.get? l with
    | none => exact .inl ⟨l, hfile (by simp [hg])⟩
    | some n =>
      cases hn : n.isFile with
      | true => exact .inl ⟨l, hfile (by simp [hg, hn])⟩
      | false =>
        refine .inr ⟨l, n, rfl, hg, ?_⟩
        obtain ⟨-, k, -, hk⟩ := locate_create_eq_ok_iff.1 hl
        obtain ⟨hlink, hdir⟩ := hk.node n hg
        simp only [overwrite, hl, hg, bind, Except.bind] at h
        cases n with
        | dir mode => cases hdir
        | file mode old => cases hn
        | link target => cases hlink
        | fifo mode => cases h
        | device kind mode =>
          cases kind with
          | null => exact ⟨rfl, (Except.ok.inj h).symm⟩
          | full =>
            simp only at h
            split at h
            · exact ⟨rfl, (Except.ok.inj h).symm⟩
            · cases h

theorem steps_of_opens {k : Nat} {here : Location} (h : Opens fs.tree k here p.steps l) :
    p.bytes.getLast? ≠ some Path.slash ∧ p.steps = p.names := by
  rcases p.steps_eq with hs | hs
  · refine ⟨fun hslash => ?_, hs⟩
    have hne : p.names ≠ [] := hs ▸ h.ne_nil
    have hend : p.steps = p.names ++ [[]] := if_pos ⟨hne, hslash⟩
    exact Opens.not_slash_end (hend ▸ h)
  · exact absurd (hs ▸ h) Opens.not_slash_end

theorem locate_create_iff_namesPlace
    (hlink : ∀ l n, fs.tree.resolveEntry fs.cwd p = .ok l → fs.tree.get? l = some n →
      n.isLink = false) :
    fs.locate .create p = .ok l ↔ fs.NamesPlace p l := by
  constructor
  · intro h
    have hfree := (isPlace_of_locate_create h).free
    obtain ⟨hc, k, hk, hl⟩ := locate_create_eq_ok_iff.1 h
    obtain ⟨hslash, hs⟩ := steps_of_opens hl
    rw [hs] at hl
    rcases List.eq_nil_or_concat p.names with hn | ⟨before, last, hn⟩
    · rw [hn] at hl
      exact absurd rfl hl.ne_nil
    · rw [List.concat_eq_append] at hn
      obtain ⟨m, i, j, hi, hj, hij⟩ := hl.split hn (List.cons_ne_nil last [])
      obtain ⟨hlast, hcase⟩ := hj.of_singleton
      obtain ⟨h₁, h₂, h₃, hlen⟩ := FileTree.isDots_of_isEntryName hlast
      have hentry : fs.NamesEntry p before last m := by
        refine ⟨hc, hn, by simp [FileTree.isDots, h₁, h₂, h₃], Nat.not_lt.1 hlen, i, by omega, ?_⟩
        exact hi.slash_end hj.isDir
      have hr := hentry.resolveEntry
      rcases hcase with rfl | ⟨target, hg⟩
      · exact ⟨hr, hslash, hfree⟩
      · cases hlink _ _ hr hg
  · intro h
    obtain ⟨hr, hslash, hfree⟩ := h
    obtain ⟨before, last, parent, hn, rfl⟩ := exists_namesEntry hr
    obtain ⟨k, hk, hl⟩ := hn.leads
    have hopen : Opens fs.tree 0 parent [last] (last :: parent) := by
      cases hg : fs.tree.get? (last :: parent) with
      | none => exact .new hn.isDir_parent hn.isEntryName hg
      | some n =>
        exact .old hg (hlink _ n hr hg) ((FileTree.isDir_of_get? hg).symm.trans hfree)
    have hs : p.steps = before ++ [last] := (Path.steps_of_getLast? hslash).trans hn.names
    exact locate_create_eq_ok_iff.2 ⟨hn.taken, k, hk, hs ▸ Opens.append hl.of_slash_end hopen⟩

/-- In a directory that is reached there is a place under every name that is not taken, as long
as its path is not too long. -/
theorem namesPlace_join {n : Name} (h : fs.Reaches p l) (hl : fs.tree.isDir l = true)
    (hn : isEntryName n = true) (hg : fs.tree.get? (n :: l) = none)
    (hlen : (p.join n).bytes.length < pathLimit) : fs.NamesPlace (p.join n) (n :: l) := by
  obtain ⟨hne, h₁, h₂, hs, h₀, hshort⟩ := isEntryName_iff.1 hn
  obtain ⟨k, hk, hlead⟩ := h.leads_names
  have hentry : fs.NamesEntry (p.join n) p.names n l := by
    refine ⟨?_, Path.names_join h.bytes_ne_nil hne hs, by simp [FileTree.isDots, hne, h₁, h₂],
      hshort, k, hk, ?_⟩
    · exact checkPath_eq_ok_iff.2
        ⟨Path.nul_notMem_join h.1 h₀, Path.join_bytes_ne_nil h.bytes_ne_nil, hlen⟩
    · rw [h.start_join]
      exact hlead.slash_end hl
  refine ⟨hentry.resolveEntry, ?_, by rw [FileTree.isDir, hg]; rfl⟩
  rw [Path.getLast?_join hne]
  exact fun hlast => hs (List.mem_of_getLast? hlast)

theorem Wrote.get?_of_erase (hw : fs.Wrote fs' l mode content) (h : fs.tree.IsPlace l)
    {l' : Location} {n : Node} (hn : (fs.erase l).tree.get? l' = some n) :
    fs.tree.get? l' = some n ∧ fs'.tree.get? l' = some n := by
  have hold := (FileTree.get?_of_erase hn).1
  refine ⟨hold, ?_⟩
  by_cases hl : l' = l
  · exact absurd hl ((FileTree.get?_of_erase hn).2 (hl ▸ h.ne_nil))
  · exact (hw.others l' hl).trans hold

theorem exists_stat_of_contents {c? : Option Bytes} (h : fs.contents p = .ok c?) :
    ∃ d, fs.stat p = .ok d := by
  cases hs : fs.stat p with
  | error f => simp [contents, hs, bind, Except.bind] at h
  | ok d => exact ⟨d, rfl⟩

theorem Wrote.resolveEntry_erase (hw : fs.Wrote fs' l mode content) (h : fs.NamesPlace p l)
    (hread : fs'.read p = .ok content) : (fs.erase l).tree.resolveEntry fs.cwd p = .ok l := by
  have hnew : ∀ n, fs'.tree.get? l = some n → n.isLink = false ∧ n.isDir = false := by
    intro n hn
    obtain rfl := Option.some.inj (hw.written.symm.trans hn)
    exact ⟨rfl, rfl⟩
  have hsame : ∀ l', l' ≠ l → (fs.erase l).tree.get? l' = fs'.tree.get? l' :=
    fun l' hne => (h.isPlace.get?_erase_of_ne hne).trans (hw.others l' hne).symm
  have hold : ∀ l' n, (fs.erase l).tree.get? l' = some n → fs.tree.get? l' = some n :=
    fun l' n hn => (hw.get?_of_erase h.isPlace hn).1
  obtain ⟨hr, hslash, -⟩ := h
  obtain ⟨before, last, parent, hn, rfl⟩ := exists_namesEntry hr
  obtain ⟨d, hstat⟩ := exists_stat_of_contents (read_eq_ok_iff.1 hread)
  obtain ⟨x, hlook⟩ := stat_eq_ok_iff.1 hstat
  obtain ⟨⟨-, -, -, k, hk, hx⟩, -⟩ := look_follow_eq_ok_iff.1 hlook
  have hs : p.steps = before ++ [last] := (Path.steps_of_getLast? hslash).trans hn.names
  rw [hs, start_congr hw.cwd] at hx
  obtain ⟨m, i, j, hi, hj, rfl⟩ := hx.split rfl
  have hne : m ≠ last :: parent := by
    rintro rfl
    obtain ⟨_, hd⟩ := FileTree.isDir_iff.1 hj.isDir
    cases (hnew _ hd).2
  have hway := (hi.slash_end hj.isDir).of_agree hnew hsame hne
  obtain ⟨k', -, hl⟩ := hn.leads
  obtain rfl := (hl.deterministic (hway.mono hold)).1
  have hentry : (fs.erase (last :: parent)).NamesEntry p before last parent :=
    ⟨hn.taken, hn.names, hn.notDots, hn.short, i, by omega, hway⟩
  exact hentry.resolveEntry

theorem Wrote.read_of_resolveEntry_erase (hw : fs.Wrote fs' l mode content)
    (h : fs.NamesPlace p l) (hway : (fs.erase l).tree.resolveEntry fs.cwd p = .ok l) :
    fs'.read p = .ok content := by
  have hnew : ∀ l' n, (fs.erase l).tree.get? l' = some n → fs'.tree.get? l' = some n :=
    fun l' n hn => (hw.get?_of_erase h.isPlace hn).2
  obtain ⟨before, last, parent, hn, rfl⟩ := exists_namesEntry hway
  obtain ⟨k, hk, hl⟩ := hn.leads
  obtain ⟨h₀, h₁, h₂⟩ := checkPath_eq_ok_iff.1 hn.taken
  have hs : p.steps = before ++ [last] := (Path.steps_of_getLast? h.2.1).trans hn.names
  refine read_of_reaches ⟨h₀, h₁, h₂, k, hk, ?_⟩ hw.written
  rw [hs, start_congr hw.cwd]
  exact (hl.mono hnew).of_slash_end.append (Leads.of_get? hw.written rfl)

theorem NamesPlace.resolveEntry_erase (h : fs.NamesPlace p l)
    (hlink : ∀ n, fs.tree.get? l = some n → n.isLink = false) :
    (fs.erase l).tree.resolveEntry fs.cwd p = .ok l := by
  have hx : ∀ n, fs.tree.get? l = some n → n.isLink = false ∧ n.isDir = false := by
    intro n hn
    exact ⟨hlink n hn, (FileTree.isDir_of_get? hn).symm.trans h.2.2⟩
  obtain ⟨before, last, parent, hn, rfl⟩ := exists_namesEntry h.1
  have hsame : ∀ l', l' ≠ last :: parent →
      (fs.erase (last :: parent)).tree.get? l' = fs.tree.get? l' :=
    fun l' hne => h.isPlace.get?_erase_of_ne hne
  exact (hn.of_agree hx hsame rfl).resolveEntry

end FileSystem

end ResourceManifest
