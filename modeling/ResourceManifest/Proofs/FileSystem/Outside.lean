import ResourceManifest.Proofs.FileSystem.Alike

set_option autoImplicit false

namespace ResourceManifest

/-- The same stands everywhere but at a location, which is not the top, and below it. -/
structure SameOutside (fs fs' : FileSystem) (l : Location) : Prop where
  below : l ≠ []
  others : ∀ m, ¬ l <:+ m → fs'.tree.get? m = fs.tree.get? m
  cwd : fs'.cwd = fs.cwd
  ignoring : fs'.ignoring = fs.ignoring

namespace FileSystem

variable {fs fs' : FileSystem} {l m : Location} {p : Path} {n : Node}

theorem look_mono (hcwd : fs'.cwd = fs.cwd)
    (hsub : ∀ m n, fs.tree.get? m = some n → fs'.tree.get? m = some n) {x : Location × Node}
    (h : fs.look .follow p = .ok x) : fs'.look .follow p = .ok x := by
  obtain ⟨m, n⟩ := x
  obtain ⟨hr, hn⟩ := look_follow_eq_ok_iff.1 h
  exact look_follow_eq_ok_iff.2 ⟨hr.mono hcwd hsub, hsub m n hn⟩

theorem get?_erase_of_not_suffix (hm : ¬ l <:+ m) : (fs.erase l).tree.get? m = fs.tree.get? m :=
  (FileTree.get?_erase fs.tree l m).trans (if_neg fun h => hm h.1)

theorem not_suffix_of_get?_erase (hne : l ≠ []) (h : (fs.erase l).tree.get? m = some n) :
    ¬ l <:+ m := by
  intro hs
  have hm : m ≠ [] := by
    rintro rfl
    exact hne (List.suffix_nil.1 hs)
  have hnone : (fs.erase l).tree.get? m = none :=
    (FileTree.get?_erase fs.tree l m).trans (if_pos ⟨hs, hm⟩)
  cases h.symm.trans hnone

/-- The path leads nowhere, or to a place to which it leads without what stands at a location. -/
def Bypasses (fs : FileSystem) (l : Location) (p : Path) : Prop :=
  ∀ x, fs.look .follow p = .ok x → (fs.erase l).look .follow p = .ok x

theorem Bypasses.not_suffix (h : fs.Bypasses l p) (hne : l ≠ [])
    (hl : fs.look .follow p = .ok (m, n)) : ¬ l <:+ m :=
  not_suffix_of_get?_erase hne (look_follow_eq_ok_iff.1 (h _ hl)).2

end FileSystem

namespace SameOutside

variable {fs fs' : FileSystem} {l m : Location} {p : Path}

theorem symm (h : SameOutside fs fs' l) : SameOutside fs' fs l :=
  ⟨h.below, fun m hm => (h.others m hm).symm, h.cwd.symm, h.ignoring.symm⟩

theorem get?_of_erase (h : SameOutside fs fs' l) (m : Location) (n : Node)
    (hn : (fs.erase l).tree.get? m = some n) : fs'.tree.get? m = some n := by
  have hm := FileSystem.not_suffix_of_get?_erase h.below hn
  rw [h.others m hm, ← FileSystem.get?_erase_of_not_suffix hm]
  exact hn

theorem look (h : SameOutside fs fs' l) (hp : fs.Bypasses l p) (hp' : fs'.Bypasses l p) :
    SameSuccess (fs.look .follow p) (fs'.look .follow p) := by
  intro x
  constructor
  · exact fun hx => @FileSystem.look_mono (fs.erase l) fs' p h.cwd h.get?_of_erase x (hp x hx)
  · exact fun hx =>
      @FileSystem.look_mono (fs'.erase l) fs p h.symm.cwd h.symm.get?_of_erase x (hp' x hx)

theorem looksAlike_join (h : SameOutside fs fs' l) {name : Name} {n : Node}
    (hr : fs.Reaches p m) (hr' : fs'.Reaches p m) (hm : ¬ l <:+ name :: m)
    (hg : fs.tree.get? (name :: m) = some n) (hn : n.isLink = false) :
    fs.LooksAlike fs' (p.join name) := by
  have hg' := (h.others _ hm).trans hg
  by_cases hlen : (p.join name).bytes.length < pathLimit
  · exact .inr ⟨name :: m, n, n,
      FileSystem.look_follow_eq_ok_iff.2 ⟨hr.join hg hn hlen, hg⟩,
      FileSystem.look_follow_eq_ok_iff.2 ⟨hr'.join hg' hn hlen, hg'⟩, rfl⟩
  · obtain ⟨-, -, -, -, h₀, -⟩ := isEntryName_iff.1 (FileTree.isEntryName_of_get? hg)
    have hnul := Path.nul_notMem_join hr.1 h₀
    exact .inl ⟨_, _, FileSystem.look_of_too_long hnul (Nat.le_of_not_lt hlen),
      FileSystem.look_of_too_long hnul (Nat.le_of_not_lt hlen)⟩

end SameOutside

end ResourceManifest
