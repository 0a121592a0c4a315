import ResourceManifest.Proofs.Ignore.Mended
import ResourceManifest.Proofs.Manifest.Alike
import ResourceManifest.Proofs.Manifest.Seen
import ResourceManifest.Proofs.Manifest.Within

set_option autoImplicit false

namespace ResourceManifest

variable {fs fs' : FileSystem} {job : Job} {r : Location} {mode : Nat}

namespace RulesMended

variable {root : Path}

theorem atRoot (h : RulesMended fs fs') (ha : fs.Alike fs')
    (hl : fs.look .follow root = .ok (r, .dir mode))
    (hl' : fs'.look .follow root = .ok (r, .dir mode)) :
    (IgnoreState.atRoot fs root).1 = (IgnoreState.atRoot fs' root).1 := by
  simp only [IgnoreState.atRoot, IgnoreState.surroundings_of_dir hl,
    IgnoreState.surroundings_of_dir hl', List.map_map, Function.comp_def, h.load ha, h.rules ha]

theorem seenAlike (h : RulesMended fs fs') (ha : fs.Alike fs') (followLinks : Bool)
    (s : IgnoreState) : Walk.SeenAlike fs fs' followLinks IgnoreState.guard s root where
  known v _ _ k := by
    simp only [IgnoreState.guard, IgnoreState.enter, h.load ha]
  entries v _ _ name := .inr ⟨ha.shape _, ha.looksAlike _, fun _ _ _ => h.endless?_eq_none_iff _⟩

end RulesMended

namespace Manifest

/-- There is nothing that stops a job whose root is at a location: around it the ignore files are
in order, no link that is followed is broken or leads back, no file is read that has no end, and no
directory to be entered has too long a path. -/
structure Unstopped (fs : FileSystem) (job : Job) (r : Location) : Prop where
  settled : IgnoreSettings.Settled fs
  around : ∀ m ∈ Location.around r, WellFormed fs (Location.path m)
  own : IgnoreKind.endless? fs job.root = none
  unbroken : ∀ v up name, Walk.VisitedIgnoring fs job.followLinks job.root v up →
    Walk.Unbroken fs job.followLinks IgnoreState.guard job.root v up name
  short : ∀ v up name mode, Walk.VisitedIgnoring fs job.followLinks job.root v up →
    fs.tree.get? (name :: v.location) = some (.dir mode) →
    v.known.skips (v.child job.root name) true = false →
    (v.child job.root name).bytes.length < pathLimit

namespace Unstopped

theorem not_emits_error (h : Unstopped fs job r) {v : Walk.Visit IgnoreState}
    {up : List (Walk.Visit IgnoreState)} {w : WalkFault}
    (hv : Walk.VisitedIgnoring fs job.followLinks job.root v up) :
    ¬ Walk.Emits fs job.followLinks IgnoreState.guard job.root v up (.error w) := by
  intro he
  cases he with
  | @broken name n _ hg hk => exact h.unbroken v up name hv n hg w hk
  | @closed name n f hg hk hs hl =>
    rcases Walk.plainKind_eq_directory_iff.1 (Walk.kind_eq_directory_iff.1 hk).1 with
      hn | ⟨-, -, l', d', hl', -⟩
    · cases n with
      | dir mode =>
        obtain ⟨hlong, -⟩ := FileSystem.too_long_of_look_join hv.reaches.1 hg rfl hl
        exact absurd hlong (Nat.not_le_of_lt (h.short v up name mode hv hg hs))
      | _ => cases hn
    · cases hl.symm.trans hl'

theorem opening (h : Unstopped fs job r) (hl : fs.look .follow job.root = .ok (r, .dir mode)) :
    Walk.opening fs job.root = ([], if Walk.isStandardInput job.root then none
      else some (IgnoreState.atRoot fs job.root).1) := by
  split
  · next hstd => exact Walk.opening_of_standardInput hstd h.settled
  · next hstd =>
    refine Walk.opening_of_around (Bool.eq_false_iff.2 hstd) h.settled (fun m hm => ?_) h.own
    obtain ⟨r', mode', hl', hm⟩ := IgnoreState.mem_surroundings hm
    cases hl.symm.trans hl'
    exact h.around m hm

theorem of_mended (h : Unstopped fs job r) (ha : fs.Alike fs') (hm : RulesMended fs fs')
    (hl : fs.look .follow job.root = .ok (r, .dir mode)) :
    Walk.opening fs job.root = Walk.opening fs' job.root := by
  have hl' := (ha.looksAlike job.root).look_dir hl
  rw [h.opening hl]
  split
  · next hstd => exact (Walk.opening_of_standardInput hstd (hm.settled ha h.settled)).symm
  · next hstd =>
    rw [hm.atRoot ha hl hl']
    refine (Walk.opening_of_around (Bool.eq_false_iff.2 hstd) (hm.settled ha h.settled)
      (fun m hmem => ?_) ((hm.endless?_eq_none_iff job.root).1 h.own)).symm
    obtain ⟨r', mode', hl'', hmem⟩ := IgnoreState.mem_surroundings hmem
    cases hl'.symm.trans hl''
    exact hm.wellFormed ha (h.around m hmem)

end Unstopped

/-- Ignore files in the directories of the walk never stop a listing. A line in them that is no
pattern has no effect, nor has what stands behind a line that is no text, nor a file whose patterns
are too much for one matcher. -/
theorem collect_of_mended (hig : job.respectIgnore = true)
    (h : fs.look .follow job.root = .ok (r, .dir mode)) (hu : Unstopped fs job r) :
    ∃ es, (collect fs job).result = .ok es ∧
      ∀ fs', fs.Alike fs' → RulesMended fs fs' → (collect fs' job).result = .ok es := by
  have hop := hu.opening h
  have hok : ∃ es, (collect fs job).result = .ok es := by
    cases hstd : Walk.isStandardInput job.root with
    | true =>
      refine ⟨[], ?_⟩
      rw [collect_ignoring_of_opening hig h, hop, hstd]
      rfl
    | false =>
      rw [hstd] at hop
      rcases collect_ignoring_of_begun hig hop h with ⟨found, -, hc⟩ | ⟨w, hw, -⟩
      · exact ⟨_, hc⟩
      · obtain ⟨v, up, hv, he⟩ := (Walk.mem_found_iff h rfl).1 hw
        exact absurd he (hu.not_emits_error hv)
  obtain ⟨es, hes⟩ := hok
  refine ⟨es, hes, fun fs' ha hm => ?_⟩
  have hsame := hu.of_mended ha hm h
  exact (collect_ignoring_seen hig (ha.looksAlike _) (by rw [hsame]) (by rw [hsame])
    (fun _ _ => hm.seenAlike ha job.followLinks _) es).1 hes

/-- Three pictures in a directory. One of them is excluded there, after a line that is no pattern,
and another one from the top. -/
def faultyTree : FileTree :=
  let d : Name := [0x64]
  let png := fun b : UInt8 => [b, 0x2E, 0x70, 0x6E, 0x67]
  let rules := IgnoreKind.ignore.entry
  (((((FileTree.empty.put [d] (.dir 0o755)).put [png 0x78, d] (.file 0o644 [])).put [png 0x79, d]
    (.file 0o644 [])).put [png 0x7A, d] (.file 0o644 [])).put [rules]
    (.file 0o644 (Utf8.encode "y.png\n"))).put [rules, d]
    (.file 0o644 (Utf8.encode "a\x7b\nz.png\n"))

theorem mended_faultyTree :
    let fs : FileSystem := { tree := faultyTree }
    let l : Location := [IgnoreKind.ignore.entry, [0x64]]
    let fs' := fs.put l (.file 0o644 (Utf8.encode "\nz.png\n"))
    fs.Alike fs' ∧ RulesMended fs fs' := by
  intro fs l fs'
  have hg : fs.tree.get? l = some (.file 0o644 (Utf8.encode "a\x7b\nz.png\n")) := rfl
  have hplace : fs.tree.IsPlace l :=
    FileTree.isPlace_cons (by decide +kernel) (by decide) (FileTree.isDir_of_get? hg)
  have hw := FileSystem.rewrote_put hplace (Utf8.encode "\nz.png\n") (.inl hg)
  have hlines : byteLines (Utf8.encode "a\x7b\nz.png\n") =
      [[0x61, 0x7B], [0x7A, 0x2E, 0x70, 0x6E, 0x67]] := by decide +kernel
  have hlines' : byteLines (Utf8.encode "\nz.png\n") = [[], [0x7A, 0x2E, 0x70, 0x6E, 0x67]] := by
    decide +kernel
  have hfault : Rule.parse? (if 1 = 1 then RuleFile.withoutOrderMarks "a\x7b" else "a\x7b") =
      .error .unclosedAlternates := by rfl
  refine ⟨hw.toWrote.alike hg, .of_rewrote hw hg (.lines ?_) fun p hp => absurd hp (by simp [fs])⟩
  rw [hlines, hlines']
  exact .blank (by decide +kernel) hfault (.refl _ _)

theorem collect_of_mended_faulty :
    let fs : FileSystem := { tree := faultyTree }
    let fs' := fs.put [IgnoreKind.ignore.entry, [0x64]] (.file 0o644 (Utf8.encode "\nz.png\n"))
    let job : Job := { root := .ofString "d", respectIgnore := true, followLinks := true }
    fs.look .follow job.root = .ok ([[0x64]], .dir 0o755) ∧ Unstopped fs job [[0x64]] ∧
    fs.Alike fs' ∧ RulesMended fs fs' ∧
    (collect fs job).result = .ok ["x.png"] ∧ (collect fs' job).result = .ok ["x.png"] := by
  intro fs fs' job
  have hl : fs.look .follow job.root = .ok ([[0x64]], .dir 0o755) := by decide +kernel
  have hc : (collect fs job).result = .ok ["x.png"] := by decide +kernel
  obtain ⟨ha, hm⟩ : fs.Alike fs' ∧ RulesMended fs fs' := mended_faultyTree
  have hlinks : ∀ e ∈ fs.tree.nodes, e.2.isLink = false := by decide +kernel
  have hdirs : ∀ e ∈ fs.tree.nodes, e.2.isDir = true → e.1 = [[0x64]] := by decide +kernel
  have hu : Unstopped fs job [[0x64]] := by
    have hno : ∀ v up name n, Walk.VisitedIgnoring fs job.followLinks job.root v up →
        fs.tree.get? (name :: v.location) = some n → n.isDir = false := by
      intro v up name n hv hn
      obtain ⟨-, hloc, -, -⟩ := hv.eq_root hl (by decide +kernel)
      refine Bool.eq_false_iff.2 fun hd => ?_
      have hdir := hdirs _ (FileTree.get?_cons_eq_some_iff.1 hn) hd
      rw [hloc] at hdir
      cases hdir
    refine ⟨⟨none, rfl⟩, fun m hm => ?_, by decide +kernel, fun v up name hv n hn f hf => ?_,
      fun v up name mode hv hn _ => by cases hno v up name _ hv hn⟩
    · obtain rfl := List.mem_singleton.1 hm
      exact wellFormed_of_reads fun k => by cases k <;> decide +kernel
    · have hlink := hlinks _ (FileTree.get?_cons_eq_some_iff.1 hn)
      rcases Walk.kind_eq_broken_iff.1 hf with hplain | ⟨hplain, -⟩
      · rw [(Walk.plainKind_eq_broken_iff.1 hplain).1] at hlink
        cases hlink
      · rcases Walk.plainKind_eq_directory_iff.1 hplain with hd | ⟨hl', -⟩
        · cases (hno v up name n hv hn).symm.trans hd
        · cases hlink.symm.trans hl'
  obtain ⟨es, hes, hmended⟩ := collect_of_mended rfl hl hu
  obtain rfl := Except.ok.inj (hc.symm.trans hes)
  exact ⟨hl, hu, ha, hm, hc, hmended fs' ha hm⟩

def unreadTree : FileTree :=
  (FileTree.empty.put [[0x78, 0x2E, 0x70, 0x6E, 0x67]] (.file 0o644 [])).put
    [IgnoreKind.ignore.entry] (.file 0o644 (0xFF :: Utf8.encode "\nx.png\n"))

/-- Two pictures in a directory. At the top one of them is excluded, after a line that is no
pattern. -/
def haltedTree : FileTree :=
  let d : Name := [0x64]
  let png := fun b : UInt8 => [b, 0x2E, 0x70, 0x6E, 0x67]
  (((FileTree.empty.put [d] (.dir 0o755)).put [png 0x78, d] (.file 0o644 [])).put [png 0x79, d]
    (.file 0o644 [])).put [IgnoreKind.ignore.entry] (.file 0o644 (Utf8.encode "a\x7b\nx.png\n"))

/-- Nothing is excluded behind a line that is no text, and around the root a line that is no
pattern stops the listing. -/
theorem collect_stopped_by_lines :
    (collect { tree := unreadTree } { root := ⟨[Path.dot]⟩, respectIgnore := true }).result =
      .ok ["x.png"] ∧
    (let root := Path.ofString "d"
    (collect { tree := haltedTree } { root, respectIgnore := true }).result =
      .error (.ignore root (.rules [.line ⟨.ofString "/.ignore", 1,
        .pattern "a\x7b" .unclosedAlternates⟩]))) := by
  decide +kernel

end Manifest

end ResourceManifest
