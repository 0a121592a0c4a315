import ResourceManifest.Proofs.FileSystem.Alike
import ResourceManifest.Proofs.Manifest.Written
import ResourceManifest.Proofs.Walk.Visit

set_option autoImplicit false

namespace ResourceManifest

namespace FileSystem.Alike

variable {fs fs' : FileSystem}

theorem plainKind {n n' : Node} (h : Alike fs fs') (hn : n.blank = n'.blank) (followLinks : Bool)
    (above : List Walk.Ancestor) (p : Path) :
    Walk.plainKind fs followLinks above p n = Walk.plainKind fs' followLinks above p n' := by
  rcases Node.eq_or_file_of_blank hn with rfl | ⟨mode, c, c', rfl, rfl⟩
  · cases n with
    | link target =>
      rcases h.look_cases .follow p with ⟨f, hl, hl'⟩ | ⟨l, d, d', hl, hl', hd⟩
      · simp only [Walk.plainKind, hl, hl']
      · simp only [Walk.plainKind, hl, hl', Node.isDir_eq_of_blank hd, Node.isFile_eq_of_blank hd]
    | _ => rfl
  · rfl

theorem below (h : Alike fs fs') (followLinks : Bool) (levels : Nat)
    (above : List Walk.Ancestor) (p : Path) :
    Walk.below fs followLinks Guard.open levels above () p =
      Walk.below fs' followLinks Guard.open levels above () p := by
  induction levels generalizing above p with
  | zero => rfl
  | succ levels ih =>
    unfold Walk.below
    rcases h.look_cases .follow p with ⟨f, hl, hl'⟩ | ⟨l, d, d', hl, hl', hd⟩
    · rw [hl, hl']
    · simp only [hl, hl', Node.isDir_eq_of_blank hd, h.shape.names l]
      congr 2
      funext name
      rcases h.shape.get?_cases (name :: l) with ⟨hg, hg'⟩ | ⟨n, n', hg, hg', hn⟩
      · rw [hg, hg']
      · rw [hg, hg']
        simp only [Walk.kind_open, h.plainKind hn, ih]

theorem files (h : Alike fs fs') (followLinks : Bool) (root : Path) :
    Walk.files fs followLinks Guard.open () root =
      Walk.files fs' followLinks Guard.open () root := by
  unfold Walk.files
  rcases h.look_cases .keep root with ⟨f, hl, hl'⟩ | ⟨l, d, d', hl, hl', -⟩
  · rw [hl, hl']
  · rcases h.stat_cases root with ⟨f, hs, hs'⟩ | ⟨n, n', hs, hs', hn⟩
    · simp only [hl, hl', hs, hs']
    · simp only [hl, hl', hs, hs', Node.isDir_eq_of_blank hn, Node.isFile_eq_of_blank hn,
        h.below]

theorem checkRoot (h : Alike fs fs') (root : Path) :
    Manifest.checkRoot fs root = Manifest.checkRoot fs' root := by
  unfold Manifest.checkRoot
  rcases h.stat_cases root with ⟨f, hs, hs'⟩ | ⟨n, n', hs, hs', hn⟩
  · rw [hs, hs']
  · simp only [hs, hs', Node.isDir_eq_of_blank hn]

theorem collect {job : Job} (h : Alike fs fs') (hj : job.respectIgnore = false) :
    Manifest.collect fs job = Manifest.collect fs' job := by
  unfold Manifest.collect findFiles
  simp only [h.checkRoot, hj, Bool.false_eq_true, if_false, h.files]

theorem write (h : Alike fs fs') (output : Path) (es : List String) (mode : WriteMode) :
    (Manifest.write fs output es mode).2 = (Manifest.write fs' output es mode).2 ∧
      Alike (Manifest.write fs output es mode).1 (Manifest.write fs' output es mode).1 := by
  cases mode with
  | direct =>
    unfold Manifest.write
    rcases h.overwrite_cases output (Manifest.content es) with
      ⟨f, ho, ho'⟩ | ⟨fs₁, fs₁', ho, ho', h₁⟩
    · simp only [ho, ho', true_and]
      exact h
    · simp only [ho, ho', true_and]
      exact h₁
  | atomic =>
    unfold Manifest.write
    obtain ⟨hr, h₁⟩ := h.replace output (Manifest.content es)
    generalize fs.replace output (Manifest.content es) = a at hr h₁
    generalize fs'.replace output (Manifest.content es) = b at hr h₁
    obtain ⟨fs₁, r⟩ := a
    obtain ⟨fs₁', r'⟩ := b
    obtain rfl : r = r' := hr
    cases r with
    | ok u => exact ⟨rfl, h₁⟩
    | error f => cases f <;> exact ⟨rfl, h₁⟩

theorem list_job {job : Job} (h : Alike fs fs') (hj : job.respectIgnore = false) :
    (Manifest.list fs job).2 = (Manifest.list fs' job).2 ∧
      Alike (Manifest.list fs job).1 (Manifest.list fs' job).1 := by
  unfold Manifest.list
  simp only [h.collect hj]
  cases (Manifest.collect fs' job).result with
  | error f => exact ⟨rfl, h⟩
  | ok es =>
    obtain ⟨hr, h₁⟩ := h.write job.output es job.mode
    simp only
    generalize Manifest.write fs job.output es job.mode = a at hr h₁
    generalize Manifest.write fs' job.output es job.mode = b at hr h₁
    obtain ⟨fs₁, r⟩ := a
    obtain ⟨fs₁', r'⟩ := b
    obtain rfl : r = r' := hr
    cases r <;> exact ⟨rfl, h₁⟩

end FileSystem.Alike

namespace Manifest

variable {fs fs' : FileSystem} {job : Job} {output : Path} {l : Location} {mode : Nat} {c : Bytes}

theorem suits_of_alike {way : WriteMode} (ha : fs.Alike fs') (h : Suits fs output way l) :
    Suits fs' output way l := by
  cases way with
  | direct =>
    obtain ⟨hl, hfile⟩ := h
    refine ⟨by rw [← ha.locate, hl], fun n' hn' => ?_⟩
    rcases ha.shape.get?_cases l with ⟨-, hnone⟩ | ⟨d, d', hd, hd', hblank⟩
    · rw [hn'] at hnone
      cases hnone
    · cases hn'.symm.trans hd'
      rw [← Node.isFile_eq_of_blank hblank]
      exact hfile d hd
  | atomic =>
    obtain ⟨hl, hslash, hfree⟩ := h
    exact ⟨by rw [ha.cwd, ← ha.shape.resolveEntry, hl], hslash, by rw [← ha.shape.isDir, hfree]⟩

theorem modeAt_of_suits {way : WriteMode} (h : Suits fs output way l)
    (hg : fs.tree.get? l = some (.file mode c)) : fs.modeAt output = mode := by
  have hopen : fs.locate .create output = .ok l := by
    cases way with
    | direct => exact h.1
    | atomic =>
      refine (FileSystem.locate_create_iff_namesPlace fun l' n hl' hn => ?_).2 h
      cases hl'.symm.trans h.1
      cases hn.symm.trans hg
      rfl
  exact FileSystem.modeAt_of_get? hopen hg

theorem list_wrote (h : Suits fs job.output job.mode l)
    (hg : fs.tree.get? l = some (.file mode c)) {r : Listing}
    (hr : (list fs job).2.result = .ok r) :
    fs.Wrote (list fs job).1 l mode (content r.entries) := by
  obtain ⟨l', ht, hcase⟩ := write_eq_ok (list_eq_ok hr).2.1
  obtain rfl : l' = l := by
    cases hm : job.mode with
    | direct =>
      rw [hm] at ht h
      exact Except.ok.inj (ht.symm.trans h.1)
    | atomic =>
      rw [hm] at ht h
      exact Except.ok.inj (ht.symm.trans h.1)
  rcases hcase with ⟨hw, -⟩ | ⟨-, -, n, hn, hspecial⟩
  · rwa [modeAt_of_suits h hg] at hw
  · cases hn.symm.trans hg
    cases hspecial

end Manifest

end ResourceManifest
