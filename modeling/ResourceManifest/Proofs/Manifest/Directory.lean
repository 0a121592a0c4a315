import ResourceManifest.Proofs.Manifest.Modes

set_option autoImplicit false

namespace ResourceManifest

variable {fs : FileSystem} {output : Path} {l : Location} {m : Nat}

namespace FileSystem

theorem locate_create_of_dir (h : fs.stat output = .ok (.dir m)) (l : Location) :
    fs.locate .create output ≠ .ok l := by
  intro hl
  cases hg : fs.tree.get? l with
  | none =>
    obtain ⟨f, hf⟩ := exists_stat_error_of_none hl hg
    cases hf.symm.trans h
  | some n =>
    obtain rfl := Except.ok.inj ((stat_of_locate_create hl hg).symm.trans h)
    have hfree := (isPlace_of_locate_create hl).free
    rw [FileTree.isDir_of_get? hg] at hfree
    cases hfree

/-- A path names a link, without a slash behind it that would ask for what it leads to. -/
structure NamesLink (fs : FileSystem) (p : Path) (l : Location) : Prop where
  entry : fs.tree.resolveEntry fs.cwd p = .ok l
  unslashed : p.bytes.getLast? ≠ some Path.slash
  link : ∃ target, fs.tree.get? l = some (.link target)

theorem NamesPlace.exists_link (hl : fs.NamesPlace output l) (h : fs.stat output = .ok (.dir m)) :
    ∃ target, fs.tree.get? l = some (.link target) := by
  obtain ⟨before, last, parent, hn, rfl⟩ := exists_namesEntry hl.1
  obtain ⟨d, hlook⟩ := stat_eq_ok_iff.1 h
  obtain ⟨hr, hd⟩ := look_follow_eq_ok_iff.1 hlook
  obtain ⟨k, -, hk⟩ := hr.leads_names
  obtain ⟨i, -, hi⟩ := hn.leads
  rw [hn.names] at hk
  obtain ⟨parent', _, _, hparent, hlast, -⟩ := hk.split rfl
  obtain rfl := (hparent.deterministic hi.of_slash_end).1
  obtain ⟨h₁, h₂, h₃, -⟩ := FileTree.isDots_of_isEntryName hn.isEntryName
  cases hlast with
  | stay _ hs _ => exact absurd hs (by simp [h₁, h₂])
  | up _ _ => exact absurd rfl h₃
  | link hg _ => exact ⟨_, hg⟩
  | entry hg _ hend =>
    -- The entry would be the directory itself.
    cases hend
    have hdir := hl.2.2
    rw [FileTree.isDir_of_get? hd] at hdir
    cases hdir

theorem namesPlace_iff_namesLink (h : fs.stat output = .ok (.dir m)) :
    fs.NamesPlace output l ↔ fs.NamesLink output l := by
  constructor
  · exact fun hl => ⟨hl.1, hl.2.1, hl.exists_link h⟩
  · rintro ⟨hl, hslash, target, hg⟩
    exact ⟨hl, hslash, FileTree.isDir_of_get? hg⟩

end FileSystem

namespace Manifest

theorem isDir_write (fs : FileSystem) (output : Path) (es : List String) (mode : WriteMode)
    {d : Location} (hd : fs.tree.isDir d = true) :
    (write fs output es mode).1.tree.isDir d = true := by
  rcases write_cases fs output es mode with ⟨p, f, hw⟩ | ⟨fs', hw⟩
  · rwa [hw]
  · obtain ⟨l, -, ⟨hwrote, hsuits⟩ | ⟨-, rfl, -⟩⟩ := write_eq_ok hw
    · have hfree : fs.tree.isDir l = false := by
        cases mode with
        | direct => exact (FileSystem.isPlace_of_locate_create hsuits.1).free
        | atomic => exact hsuits.2.2
      have hne : d ≠ l := by
        rintro rfl
        cases hd.symm.trans hfree
      rw [hw, FileTree.isDir, hwrote.others d hne]
      exact hd
    · rwa [hw]

/-- Where a path leads to a directory, writing over it fails, and so does replacing it unless the
path names a link. Then the link gives way to the manifest, with the directory's mode, if there is
room for a file beside it. Every failure leaves all as it was, and every directory stays one. -/
theorem write_onto_directory (es : List String) (h : fs.stat output = .ok (.dir m)) :
    (∃ f, write fs output es .direct = (fs, .error (.io output f))) ∧
    ((∀ l, ¬ fs.NamesLink output l) →
      ∃ q f, write fs output es .atomic = (fs, .error (.io q f))) ∧
    (∀ l, fs.NamesLink output l →
      (fs.HasRoom (FileSystem.directoryOf output) → ∃ fs',
        write fs output es .atomic = (fs', .ok ()) ∧ fs.Wrote fs' l m (content es)) ∧
      (¬ fs.HasRoom (FileSystem.directoryOf output) → ∃ f,
        write fs output es .atomic = (fs, .error (.io (FileSystem.directoryOf output) f)))) ∧
    ∀ mode d, fs.tree.isDir d = true → (write fs output es mode).1.tree.isDir d = true := by
  refine ⟨write_direct_of_not_opens es (FileSystem.locate_create_of_dir h), fun hno => ?_,
    fun l hl => ⟨fun hroom => ?_, write_atomic_of_not_hasRoom es⟩,
    fun mode d hd => isDir_write fs output es mode hd⟩
  · rcases write_atomic_cases fs output es with hfail | ⟨l, hl, -⟩
    · exact hfail
    · exact absurd ((FileSystem.namesPlace_iff_namesLink h).1 hl) (hno l)
  · have hplace := (FileSystem.namesPlace_iff_namesLink h).2 hl
    have hmode : fs.modeAt output = m := by
      rw [FileSystem.modeAt, h]
      rfl
    rw [write_atomic_ok (FileSystem.replace_of_namesPlace hplace hroom), hmode]
    exact ⟨_, rfl, FileSystem.wrote_put hplace.isPlace _ _⟩

theorem write_onto_directory_and_link :
    let fs : FileSystem := { tree := outputTree }
    fs.stat (.ofString "d") = .ok (.dir 0o755) ∧ (∀ l, ¬ fs.NamesLink (.ofString "d") l) ∧
    (∃ q f, write fs (.ofString "d") ["x.png"] .atomic = (fs, .error (.io q f))) ∧
    fs.stat (.ofString "a") = .ok (.dir 0o755) ∧ fs.NamesLink (.ofString "a") [[0x61]] ∧
    (∃ f, write fs (.ofString "a") ["x.png"] .direct = (fs, .error (.io (.ofString "a") f))) ∧
    ∃ fs', write fs (.ofString "a") ["x.png"] .atomic = (fs', .ok ()) ∧
      fs.Wrote fs' [[0x61]] 0o755 (content ["x.png"]) ∧ fs'.tree.isDir [[0x64]] = true := by
  intro fs
  have hd : fs.stat (.ofString "d") = .ok (.dir 0o755) := by decide +kernel
  have ha : fs.stat (.ofString "a") = .ok (.dir 0o755) := by decide +kernel
  have hentry : fs.tree.resolveEntry fs.cwd (.ofString "d") = .ok [[0x64]] := by decide +kernel
  have hno : ∀ l, ¬ fs.NamesLink (.ofString "d") l := by
    rintro l ⟨hl, -, target, hg⟩
    cases hentry.symm.trans hl
    have hdir : fs.tree.get? [[0x64]] = some (.dir 0o755) := rfl
    cases hdir.symm.trans hg
  have hlink : fs.NamesLink (.ofString "a") [[0x61]] :=
    ⟨by decide +kernel, by decide +kernel, _, rfl⟩
  have hroom : fs.HasRoom (FileSystem.directoryOf (.ofString "a")) := by decide +kernel
  obtain ⟨hdirect, -, hatomic, hkept⟩ := write_onto_directory ["x.png"] ha
  obtain ⟨fs', hw, hwrote⟩ := (hatomic _ hlink).1 hroom
  have hdir := hkept .atomic [[0x64]] rfl
  rw [hw] at hdir
  exact ⟨hd, hno, (write_onto_directory ["x.png"] hd).2.1 hno, ha, hlink, hdirect, fs', hw, hwrote,
    hdir⟩

/-- A link to a directory is replaced by a manifest. -/
theorem write_replaces_link_to_directory :
    let fs : FileSystem := { tree := outputTree }
    let output := Path.ofString "a"
    fs.stat output = .ok (.dir 0o755) ∧ (write fs output ["x.png"] .atomic).2 = .ok () ∧
    (write fs output ["x.png"] .atomic).1.tree.get? [[0x61]] =
      some (.file 0o755 (content ["x.png"])) := by
  decide +kernel

end Manifest

end ResourceManifest
