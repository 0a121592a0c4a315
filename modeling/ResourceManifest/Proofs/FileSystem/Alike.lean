import ResourceManifest.Proofs.FileSystem.Write
import ResourceManifest.Proofs.FileTree.Shape

/-!
Answers that agree but for the fault, and paths that lead to the same in two file systems. File
systems that differ only in what their files hold: whatever is done to both has the same answer, and
leaves them alike, unless it reads a file.
-/

set_option autoImplicit false

namespace ResourceManifest

/-- The same success, or two faults of whatever kind. -/
def SameSuccess {ε ε' α : Type} (x : Except ε α) (y : Except ε' α) : Prop :=
  ∀ a, x = .ok a ↔ y = .ok a

namespace SameSuccess

variable {ε ε' α β : Type} {x : Except ε α} {y : Except ε' α}

theorem refl (x : Except ε α) : SameSuccess x x := fun _ => Iff.rfl

theorem symm (h : SameSuccess x y) : SameSuccess y x := fun a => (h a).symm

theorem of_oks (a : α) : SameSuccess (.ok a : Except ε α) (.ok a : Except ε' α) := by
  simp [SameSuccess]

theorem of_errors (f : ε) (f' : ε') : SameSuccess (.error f : Except ε α) (.error f') := by
  simp [SameSuccess]

theorem oks_or_errors (h : SameSuccess x y) :
    (∃ a, x = .ok a ∧ y = .ok a) ∨ ∃ f f', x = .error f ∧ y = .error f' := by
  cases x with
  | ok a => exact .inl ⟨a, rfl, (h a).1 rfl⟩
  | error f =>
    cases y with
    | ok a => cases (h a).2 rfl
    | error f' => exact .inr ⟨f, f', rfl, rfl⟩

theorem map (h : SameSuccess x y) (f : α → β) : SameSuccess (x.map f) (y.map f) := by
  rcases h.oks_or_errors with ⟨a, rfl, rfl⟩ | ⟨e, e', rfl, rfl⟩
  · exact of_oks (f a)
  · exact of_errors e e'

theorem mapError {ε₁ ε₁' : Type} (h : SameSuccess x y) (f : ε → ε₁) (f' : ε' → ε₁') :
    SameSuccess (x.mapError f) (y.mapError f') := by
  rcases h.oks_or_errors with ⟨a, rfl, rfl⟩ | ⟨e, e', rfl, rfl⟩
  · exact of_oks a
  · exact of_errors (f e) (f' e')

end SameSuccess

namespace FileSystem

section Looking

variable {fs fs' : FileSystem} {p : Path} {l : Location} {mode : Nat}

/-- The path leads nowhere in either, or to one place, where the same stands but for what a file
holds. -/
def LooksAlike (fs fs' : FileSystem) (p : Path) : Prop :=
  (∃ f f', fs.look .follow p = .error f ∧ fs'.look .follow p = .error f') ∨
  ∃ l n n', fs.look .follow p = .ok (l, n) ∧ fs'.look .follow p = .ok (l, n') ∧
    n.blank = n'.blank

theorem looksAlike_of_sameSuccess (h : SameSuccess (fs.look .follow p) (fs'.look .follow p)) :
    fs.LooksAlike fs' p := by
  rcases h.oks_or_errors with ⟨⟨l, n⟩, hl, hl'⟩ | herrors
  · exact .inr ⟨l, n, n, hl, hl', rfl⟩
  · exact .inl herrors

theorem contents_of_sameSuccess {p' : Path}
    (h : SameSuccess (fs.look .follow p) (fs'.look .follow p')) :
    SameSuccess (fs.contents p) (fs'.contents p') := by
  rcases h.oks_or_errors with ⟨x, hl, hl'⟩ | ⟨f, f', hl, hl'⟩
  · simp only [contents, stat, hl, hl']
    exact .refl _
  · simp only [contents, stat, hl, hl']
    exact .of_errors f f'

namespace LooksAlike

theorem symm (h : fs.LooksAlike fs' p) : fs'.LooksAlike fs p := by
  rcases h with ⟨f, f', hl, hl'⟩ | ⟨l, n, n', hl, hl', hn⟩
  · exact .inl ⟨f', f, hl', hl⟩
  · exact .inr ⟨l, n', n, hl', hl, hn.symm⟩

theorem look_dir (h : fs.LooksAlike fs' p) (hl : fs.look .follow p = .ok (l, .dir mode)) :
    fs'.look .follow p = .ok (l, .dir mode) := by
  rcases h with ⟨f, f', hf, -⟩ | ⟨m, n, n', hn, hn', hblank⟩
  · cases hl.symm.trans hf
  · cases hl.symm.trans hn
    obtain rfl := (Node.eq_or_file_of_blank hblank).resolve_right (by simp)
    exact hn'

end LooksAlike

end Looking

/-- The same stands in the same places, whatever the files hold, and all else is the same. -/
structure Alike (fs fs' : FileSystem) : Prop where
  shape : fs.tree.SameShape fs'.tree
  cwd : fs'.cwd = fs.cwd
  umask : fs'.umask = fs.umask
  naming : fs'.naming = fs.naming
  ignoring : fs'.ignoring = fs.ignoring

namespace Alike

variable {fs fs' : FileSystem} {p : Path} {l : Location} {n n' : Node}

theorem refl (fs : FileSystem) : Alike fs fs := ⟨.refl _, rfl, rfl, rfl, rfl⟩

theorem trans {fs'' : FileSystem} (h : Alike fs fs') (h' : Alike fs' fs'') : Alike fs fs'' :=
  ⟨h.shape.trans h'.shape, h'.cwd.trans h.cwd, h'.umask.trans h.umask,
    h'.naming.trans h.naming, h'.ignoring.trans h.ignoring⟩

theorem locate (h : Alike fs fs') (ending : Ending) (p : Path) :
    fs.locate ending p = fs'.locate ending p := by
  rw [FileSystem.locate, FileSystem.locate, h.cwd, h.shape.resolve]

theorem look_cases (h : Alike fs fs') (ending : Ending) (p : Path) :
    (∃ f, fs.look ending p = .error f ∧ fs'.look ending p = .error f) ∨
    ∃ l n n', fs.look ending p = .ok (l, n) ∧ fs'.look ending p = .ok (l, n') ∧
      n.blank = n'.blank := by
  unfold look
  rw [← h.locate]
  cases fs.locate ending p with
  | error f => exact .inl ⟨f, rfl, rfl⟩
  | ok l =>
    rcases h.shape.get?_cases l with ⟨hg, hg'⟩ | ⟨n, n', hg, hg', hn⟩
    · exact .inl ⟨.notFound, by simp [hg, bind, Except.bind], by simp [hg', bind, Except.bind]⟩
    · exact .inr ⟨l, n, n', by simp [hg, bind, Except.bind], by simp [hg', bind, Except.bind], hn⟩

theorem looksAlike (h : Alike fs fs') (p : Path) : fs.LooksAlike fs' p := by
  rcases h.look_cases .follow p with ⟨f, hl, hl'⟩ | hsame
  · exact .inl ⟨f, f, hl, hl'⟩
  · exact .inr hsame

theorem stat_cases (h : Alike fs fs') (p : Path) :
    (∃ f, fs.stat p = .error f ∧ fs'.stat p = .error f) ∨
    ∃ n n', fs.stat p = .ok n ∧ fs'.stat p = .ok n' ∧ n.blank = n'.blank := by
  unfold stat
  rcases h.look_cases .follow p with ⟨f, hl, hl'⟩ | ⟨l, n, n', hl, hl', hn⟩
  · exact .inl ⟨f, by rw [hl]; rfl, by rw [hl']; rfl⟩
  · exact .inr ⟨n, n', by rw [hl]; rfl, by rw [hl']; rfl, hn⟩

theorem list (h : Alike fs fs') (p : Path) : fs.list p = fs'.list p := by
  unfold FileSystem.list
  rcases h.look_cases .follow p with ⟨f, hl, hl'⟩ | ⟨l, n, n', hl, hl', hn⟩
  · rw [hl, hl']
    rfl
  · rw [hl, hl']
    simp only [bind, Except.bind, Node.isDir_eq_of_blank hn, h.shape.names l]

theorem newMode (h : Alike fs fs') : fs.newMode = fs'.newMode := by
  rw [FileSystem.newMode, FileSystem.newMode, h.umask]

theorem temporaryPath (h : Alike fs fs') (dir : Path) :
    fs.temporaryPath dir = fs'.temporaryPath dir := by
  have htop : fs.fromTop dir = fs'.fromTop dir := by
    rw [fromTop, fromTop, h.cwd]
  unfold FileSystem.temporaryPath
  rw [htop, h.list, h.naming]

theorem put (h : Alike fs fs') (l : Location) (hn : n.blank = n'.blank) :
    Alike (fs.put l n) (fs'.put l n') :=
  ⟨h.shape.put l hn, h.cwd, h.umask, h.naming, h.ignoring⟩

theorem erase (h : Alike fs fs') (l : Location) : Alike (fs.erase l) (fs'.erase l) :=
  ⟨h.shape.erase l, h.cwd, h.umask, h.naming, h.ignoring⟩

theorem modeAt (h : Alike fs fs') (p : Path) : fs.modeAt p = fs'.modeAt p := by
  unfold FileSystem.modeAt
  rcases h.stat_cases p with ⟨f, hs, hs'⟩ | ⟨n, n', hs, hs', hn⟩
  · rw [hs, hs', h.newMode]
  · rw [hs, hs']
    exact Node.mode_eq_of_blank hn

theorem makeTemporary_cases (h : Alike fs fs') (dir : Path) :
    (∃ f, fs.makeTemporary dir = .error f ∧ fs'.makeTemporary dir = .error f) ∨
    ∃ l fs₁ fs₁', fs.makeTemporary dir = .ok (l, fs₁) ∧ fs'.makeTemporary dir = .ok (l, fs₁') := by
  have hr' : fs'.tree.resolveEntry fs'.cwd (fs'.temporaryPath dir) =
      fs.tree.resolveEntry fs.cwd (fs.temporaryPath dir) := by
    rw [h.temporaryPath, h.cwd, h.shape.resolveEntry]
  simp only [makeTemporary, hr']
  cases fs.tree.resolveEntry fs.cwd (fs.temporaryPath dir) with
  | error f => exact .inl ⟨_, rfl, by rw [h.temporaryPath]⟩
  | ok l => exact .inr ⟨l, _, _, rfl, rfl⟩

theorem rename_cases (h : Alike fs fs') (old : Location) (p : Path) :
    (∃ f, fs.rename old p = .error f ∧ fs'.rename old p = .error f) ∨
    ∃ fs₁ fs₁', fs.rename old p = .ok fs₁ ∧ fs'.rename old p = .ok fs₁' ∧ Alike fs₁ fs₁' := by
  unfold rename
  rw [h.cwd, ← h.shape.resolveEntry]
  cases fs.tree.resolveEntry fs.cwd p with
  | error f => cases f <;> exact .inl ⟨_, rfl, rfl⟩
  | ok l =>
    simp only [← h.shape.isDir l]
    split
    · exact .inl ⟨_, rfl, rfl⟩
    · split
      · exact .inl ⟨_, rfl, rfl⟩
      · rcases h.shape.get?_cases old with ⟨hg, hg'⟩ | ⟨n, n', hg, hg', hn⟩
        · exact .inl ⟨.notFound, by rw [hg], by rw [hg']⟩
        · exact .inr ⟨_, _, by rw [hg], by rw [hg'], (h.erase old).put l hn⟩

theorem overwrite_cases (h : Alike fs fs') (p : Path) (content : Bytes) :
    (∃ f, fs.overwrite p content = .error f ∧ fs'.overwrite p content = .error f) ∨
    ∃ fs₁ fs₁', fs.overwrite p content = .ok fs₁ ∧ fs'.overwrite p content = .ok fs₁' ∧
      Alike fs₁ fs₁' := by
  unfold overwrite
  rw [← h.locate]
  cases fs.locate .create p with
  | error f => exact .inl ⟨f, rfl, rfl⟩
  | ok l =>
    simp only [bind, Except.bind]
    rcases h.shape.get?_cases l with ⟨hg, hg'⟩ | ⟨n, n', hg, hg', hn⟩
    · rw [hg, hg']
      refine .inr ⟨_, _, rfl, rfl, h.put l ?_⟩
      rw [h.newMode]
    · rw [hg, hg']
      rcases Node.eq_or_file_of_blank hn with rfl | ⟨mode, c, c', rfl, rfl⟩
      · cases n with
        | dir mode => exact .inl ⟨_, rfl, rfl⟩
        | file mode c => exact .inr ⟨_, _, rfl, rfl, h.put l rfl⟩
        | link target => exact .inr ⟨_, _, rfl, rfl, h⟩
        | fifo mode => exact .inl ⟨_, rfl, rfl⟩
        | device kind mode =>
          cases kind with
          | null => exact .inr ⟨_, _, rfl, rfl, h⟩
          | full =>
            simp only
            split
            · exact .inr ⟨_, _, rfl, rfl, h⟩
            · exact .inl ⟨_, rfl, rfl⟩
      · exact .inr ⟨_, _, rfl, rfl, h.put l rfl⟩

theorem replace (h : Alike fs fs') (p : Path) (content : Bytes) :
    (fs.replace p content).2 = (fs'.replace p content).2 ∧
      Alike (fs.replace p content).1 (fs'.replace p content).1 := by
  rw [replace_eq, replace_eq, ← h.modeAt]
  rcases h.makeTemporary_cases (directoryOf p) with ⟨f, hm, hm'⟩ | ⟨x, fs₁, fs₁', hm, hm'⟩
  · simp only [hm, hm', true_and]
    exact h
  · simp only [hm, hm']
    have hput : Alike (fs.put x (.file (fs.modeAt p) content))
        (fs'.put x (.file (fs.modeAt p) content)) := h.put x rfl
    rcases hput.rename_cases x p with ⟨f, hr, hr'⟩ | ⟨fs₂, fs₂', hr, hr', h₂⟩
    · simp only [hr, hr', true_and]
      exact h
    · simp only [hr, hr', true_and]
      exact h₂

end Alike

theorem Wrote.alike {fs fs' : FileSystem} {l : Location} {mode : Nat} {c c' : Bytes}
    (h : fs.Wrote fs' l mode c') (hg : fs.tree.get? l = some (.file mode c)) : Alike fs fs' where
  shape l' := by
    by_cases hl : l' = l
    · rw [hl, hg, h.written]
      rfl
    · rw [h.others l' hl]
  cwd := h.cwd
  umask := h.umask
  naming := h.naming
  ignoring := h.ignoring

end FileSystem

end ResourceManifest
