import ResourceManifest.Proofs.Manifest.Written

/-!
The two ways to write a manifest. Where the path names a file or nothing, they come to the same:
both fail and change nothing, or both leave the same. The one exception is a directory with a path
so long that a file beside the manifest cannot be made.
-/

set_option autoImplicit false

namespace ResourceManifest

namespace Manifest

variable {fs : FileSystem} {output : Path} {l : Location}

theorem write_direct_of_not_opens (es : List String) (h : ∀ l, fs.locate .create output ≠ .ok l) :
    ∃ f, write fs output es .direct = (fs, .error (.io output f)) := by
  cases ho : fs.overwrite output (content es) with
  | error f => exact ⟨f, write_direct_error ho⟩
  | ok fs' =>
    rcases FileSystem.overwrite_eq_ok ho with ⟨l, hl, -⟩ | ⟨l, n, hl, -⟩
    · exact absurd hl.1 (h l)
    · exact absurd hl (h l)

theorem write_atomic_of_not_hasRoom (es : List String)
    (h : ¬ fs.HasRoom (FileSystem.directoryOf output)) :
    ∃ f, write fs output es .atomic =
      (fs, .error (.io (FileSystem.directoryOf output) f)) := by
  obtain ⟨f, hr⟩ := FileSystem.replace_of_not_hasRoom h
  exact ⟨f, write_atomic_inDirectory hr⟩

theorem write_of_namesPlace {mode : WriteMode} (es : List String) (h : fs.NamesPlace output l)
    (hopens : fs.OpensFile output l) (hroom : fs.HasRoom (FileSystem.directoryOf output)) :
    write fs output es mode =
      (fs.put l (.file (fs.modeAt output) (content es)), .ok ()) := by
  cases mode with
  | direct => exact write_direct_ok (FileSystem.overwrite_of_opensFile hopens)
  | atomic => exact write_atomic_ok (FileSystem.replace_of_namesPlace h hroom)

/-- Over a file, or where nothing stands, it makes no difference how a manifest is written, if
there is room for a file beside it. Both ways fail where the path names no place for a file, and
only there. -/
theorem write_modes_agree (es : List String)
    (hplain : ∀ l n, fs.tree.resolveEntry fs.cwd output = .ok l → fs.tree.get? l = some n →
      n.isLink = false ∧ n.isSpecial = false) :
    (fs.HasRoom (FileSystem.directoryOf output) →
      ((∀ l, ¬ fs.NamesPlace output l) ∧
        ∃ f q g, write fs output es .direct = (fs, .error (.io output f)) ∧
          write fs output es .atomic = (fs, .error (.io q g))) ∨
      ∃ fs' l mode, write fs output es .direct = (fs', .ok ()) ∧
        write fs output es .atomic = (fs', .ok ()) ∧
        fs.NamesPlace output l ∧ fs.Wrote fs' l mode (content es) ∧
        (∀ n, fs.tree.get? l = some n → mode = n.mode) ∧
        (fs.tree.get? l = none → mode = 0o666 - (0o666 &&& fs.umask))) ∧
    (¬ fs.HasRoom (FileSystem.directoryOf output) →
      ∃ f, write fs output es .atomic =
        (fs, .error (.io (FileSystem.directoryOf output) f))) := by
  have hlink : ∀ l n, fs.tree.resolveEntry fs.cwd output = .ok l → fs.tree.get? l = some n →
      n.isLink = false := fun l n hr hn => (hplain l n hr hn).1
  refine ⟨fun hroom => ?_, write_atomic_of_not_hasRoom es⟩
  by_cases hp : ∃ l, fs.NamesPlace output l
  · obtain ⟨l, hl⟩ := hp
    have hc := (FileSystem.locate_create_iff_namesPlace hlink).2 hl
    have hopens : fs.OpensFile output l := by
      refine ⟨hc, fun n hn => ?_⟩
      have hfree : n.isDir = false := (FileTree.isDir_of_get? hn).symm.trans hl.2.2
      exact Node.isFile_of_not hfree (hplain l n hl.1 hn).1 (hplain l n hl.1 hn).2
    exact .inr ⟨_, l, fs.modeAt output, write_of_namesPlace es hl hopens hroom,
      write_of_namesPlace es hl hopens hroom, hl, FileSystem.wrote_put hl.isPlace _ _,
      fun n hn => FileSystem.modeAt_of_get? hc hn, FileSystem.modeAt_of_none hc⟩
  · have hno : ∀ l, ¬ fs.NamesPlace output l := fun l hl => hp ⟨l, hl⟩
    obtain ⟨f, hf⟩ := write_direct_of_not_opens es fun l hl =>
      hno l ((FileSystem.locate_create_iff_namesPlace hlink).1 hl)
    rcases write_atomic_cases fs output es with ⟨q, g, hg⟩ | ⟨l, hl, -⟩
    · exact .inl ⟨hno, f, q, g, hf, hg⟩
    · exact absurd hl (hno l)

def fileTree : FileTree :=
  let d : Name := [0x64]
  (FileTree.empty.put [d] (.dir 0o755)).put [[0x6D], d] (.file 0o600 [0x5B, 0x5D])

theorem write_modes_agree_over_file :
    let fs : FileSystem := { tree := fileTree }
    let output := Path.ofString "./d//m"
    fs.tree.resolveEntry fs.cwd output = .ok [[0x6D], [0x64]] ∧
    fs.HasRoom (FileSystem.directoryOf output) ∧
    ∃ fs' l, write fs output ["x.png"] .direct = (fs', .ok ()) ∧
      write fs output ["x.png"] .atomic = (fs', .ok ()) ∧
      fs.Wrote fs' l 0o600 (content ["x.png"]) := by
  have hr : fileTree.resolveEntry [] (.ofString "./d//m") = .ok [[0x6D], [0x64]] := by
    decide +kernel
  have hg : fileTree.get? [[0x6D], [0x64]] = some (.file 0o600 [0x5B, 0x5D]) := rfl
  have hok : (write { tree := fileTree } (.ofString "./d//m") ["x.png"] .direct).2 = .ok () := by
    decide +kernel
  have hroom : FileSystem.HasRoom { tree := fileTree }
      (FileSystem.directoryOf (.ofString "./d//m")) := by decide +kernel
  have hplain : ∀ l n, fileTree.resolveEntry [] (.ofString "./d//m") = .ok l →
      fileTree.get? l = some n → n.isLink = false ∧ n.isSpecial = false := by
    intro l n hl hn
    rw [hr] at hl
    cases hl
    rw [hg] at hn
    cases hn
    exact ⟨rfl, rfl⟩
  have hagree := (write_modes_agree ["x.png"] hplain).1 hroom
  rcases hagree with ⟨-, f, q, g, hd, -⟩ | ⟨fs', l, mode, hd, ha, hl, hw, hmode, -⟩
  · rw [hd] at hok
    cases hok
  · have hl' := hl.1
    rw [hr] at hl'
    cases hl'
    obtain rfl : mode = 0o600 := hmode _ hg
    exact ⟨hr, hroom, fs', _, hd, ha, hw⟩

theorem length_number (i : Nat) : 10 ≤ (Naming.number i).length := by
  rw [Naming.number_eq_map, List.length_map, List.length_append, Naming.digits, List.length_append,
    List.length_replicate, show ".tmp".toList.length = 4 from rfl]
  omega

def directoryTree : FileTree := FileTree.empty.put [[0x64]] (.dir 0o755)

def distantPath (k : Nat) : Path :=
  ((FileSystem.dotted k).join [0x64]).join [0x6D, 0x2E, 0x6A, 0x73, 0x6F, 0x6E]

theorem namesPlace_distantPath {k : Nat} (hk : 0 < k) (hlen : 2 * k + 9 < pathLimit) :
    FileSystem.NamesPlace { tree := directoryTree } (distantPath k)
      [[0x6D, 0x2E, 0x6A, 0x73, 0x6F, 0x6E], [0x64]] := by
  have hdots : FileSystem.Reaches { tree := directoryTree } (FileSystem.dotted k) [] :=
    FileSystem.reaches_dotted hk (by omega) rfl
  have hd : directoryTree.get? [[0x64]] = some (.dir 0o755) := rfl
  have hdir : ((FileSystem.dotted k).join [0x64]).bytes.length ≤ 2 * k + 2 := by
    have hle := Path.length_join_le (p := FileSystem.dotted k) (n := [0x64])
    rwa [FileSystem.length_dotted] at hle
  have hreach := hdots.join hd rfl (by omega)
  have hfile : (distantPath k).bytes.length ≤ _ := Path.length_join_le
  exact FileSystem.namesPlace_join hreach rfl rfl rfl
    (Nat.lt_of_le_of_lt hfile (by simp only [List.length_cons, List.length_nil]; omega))

theorem names_distantPath {k : Nat} (hk : 0 < k) : (distantPath k).names =
    List.replicate k [Path.dot] ++ [[0x64], [0x6D, 0x2E, 0x6A, 0x73, 0x6F, 0x6E]] := by
  have hb : (FileSystem.dotted k).bytes ≠ [] :=
    List.ne_nil_of_length_pos (by rw [FileSystem.length_dotted]; omega)
  rw [distantPath, Path.names_join (Path.join_bytes_ne_nil hb) (by decide) (by decide),
    Path.names_join hb (by decide) (by decide), FileSystem.names_dotted, List.append_assoc]
  rfl

theorem not_hasRoom_distantPath {k : Nat} (hk : 0 < k) (hlen : pathLimit ≤ 2 * k + 12) :
    ¬ FileSystem.HasRoom { tree := directoryTree }
      (FileSystem.directoryOf (distantPath k)) := by
  intro h
  obtain ⟨taken, hle⟩ := FileSystem.le_length_temporaryPath { tree := directoryTree }
    (names_distantPath hk) (by decide) (by decide)
  have hpick : 10 ≤ (Naming.numbered.pick taken).length := length_number _
  have hlt := h.1
  simp at hle
  omega

theorem write_distantPath {k : Nat} (hk : 0 < k) (hlen : 2 * k + 9 < pathLimit)
    (hlong : pathLimit ≤ 2 * k + 12) (es : List String) :
    let fs : FileSystem := { tree := directoryTree }
    let l : Location := [[0x6D, 0x2E, 0x6A, 0x73, 0x6F, 0x6E], [0x64]]
    fs.tree.resolveEntry fs.cwd (distantPath k) = .ok l ∧ fs.tree.get? l = none ∧
    (write fs (distantPath k) es .direct).2 = .ok () ∧
    ∃ q f, (write fs (distantPath k) es .atomic).2 = .error (.io q f) := by
  intro fs l
  have hl : fs.NamesPlace (distantPath k) l := namesPlace_distantPath hk hlen
  have hnone : fs.tree.get? l = none := rfl
  have hfree : ∀ l' n, fs.tree.resolveEntry fs.cwd (distantPath k) = .ok l' →
      fs.tree.get? l' ≠ some n := by
    intro l' n hl' hn
    rw [hl.1] at hl'
    cases hl'
    cases hn
  have hopen : fs.OpensFile (distantPath k) l :=
    ⟨(FileSystem.locate_create_iff_namesPlace fun l' n hr hn => absurd hn (hfree l' n hr)).2 hl,
      fun n hn => absurd hn (hfree l n hl.1)⟩
  refine ⟨hl.1, hnone, ?_, ?_⟩
  · rw [write_direct_ok (FileSystem.overwrite_of_opensFile hopen)]
  · obtain ⟨f, hf⟩ := write_atomic_of_not_hasRoom es (not_hasRoom_distantPath hk hlong)
    exact ⟨_, f, by rw [hf]⟩

/-- No link and nothing else stands there, and to write is possible, but the file beside it would
have too long a path. -/
theorem write_modes_differ :
    let fs : FileSystem := { tree := directoryTree }
    let l : Location := [[0x6D, 0x2E, 0x6A, 0x73, 0x6F, 0x6E], [0x64]]
    fs.tree.resolveEntry fs.cwd (distantPath 2043) = .ok l ∧ fs.tree.get? l = none ∧
    (write fs (distantPath 2043) ["a.png"] .direct).2 = .ok () ∧
    ∃ q f, (write fs (distantPath 2043) ["a.png"] .atomic).2 = .error (.io q f) :=
  write_distantPath (by decide) (by decide) (by decide) ["a.png"]

end Manifest

end ResourceManifest
