import ResourceManifest.Proofs.FileSystem.Reaches
import ResourceManifest.Proofs.FileTree.Opens
import ResourceManifest.Proofs.Path.Parent

set_option autoImplicit false

namespace ResourceManifest.FileSystem

variable {fs : FileSystem} {p : Path} {before : List Bytes} {last : Name} {parent l : Location}

/-- The path is one that the system takes, it ends in a name, and what stands in front of that
leads to a directory. -/
structure NamesEntry (fs : FileSystem) (p : Path) (before : List Bytes) (last : Name)
    (parent : Location) : Prop where
  taken : FileTree.checkPath p = .ok ()
  names : p.names = before ++ [last]
  notDots : FileTree.isDots last = false
  short : last.length ≤ nameLimit
  leads : ∃ k, k ≤ linkLimit ∧ Leads fs.tree k (fs.start p) (before ++ [[]]) parent

theorem resolveEntry_of_names (hc : FileTree.checkPath p = .ok ())
    (hn : p.names = before ++ [last]) :
    fs.tree.resolveEntry fs.cwd p = (do
      let (parent, _) ← fs.tree.walk .follow linkLimit (fs.start p) (before ++ [[]])
      if FileTree.isDots last then .error .busy
      else if nameLimit < last.length then .error .nameTooLong
      else .ok (last :: parent)) := by
  have hnames : (Path.segments p.bytes).filter (· ≠ []) = before ++ [last] := hn
  simp only [FileTree.resolveEntry, hc, hnames, List.reverse_append, List.reverse_cons,
    List.reverse_nil, List.nil_append, List.cons_append, List.reverse_reverse]
  rfl

theorem NamesEntry.resolveEntry (h : fs.NamesEntry p before last parent) :
    fs.tree.resolveEntry fs.cwd p = .ok (last :: parent) := by
  obtain ⟨k, hk, hl⟩ := h.leads
  have hw := FileTree.walk_follow_of_leads (linkLimit - k) hl
  rw [Nat.sub_add_cancel hk] at hw
  have hlen : ¬ nameLimit < last.length := Nat.not_lt.2 h.short
  rw [resolveEntry_of_names h.taken h.names, hw]
  simp only [bind, Except.bind, h.notDots, Bool.false_eq_true, if_false, if_neg hlen]

theorem exists_namesEntry (h : fs.tree.resolveEntry fs.cwd p = .ok l) :
    ∃ before last parent, fs.NamesEntry p before last parent ∧ l = last :: parent := by
  obtain ⟨⟨⟩, hc⟩ : ∃ u, FileTree.checkPath p = .ok u := by
    cases hc : FileTree.checkPath p with
    | ok u => exact ⟨u, rfl⟩
    | error f => simp [FileTree.resolveEntry, hc, bind, Except.bind] at h
  rcases List.eq_nil_or_concat p.names with hn | ⟨before, last, hn⟩
  · have hnames : (Path.segments p.bytes).filter (· ≠ []) = [] := hn
    simp only [FileTree.resolveEntry, hc, hnames] at h
    cases h
  · rw [List.concat_eq_append] at hn
    rw [resolveEntry_of_names hc hn] at h
    cases hw : fs.tree.walk .follow linkLimit (fs.start p) (before ++ [[]]) with
    | error f => simp [hw, bind, Except.bind] at h
    | ok r =>
      obtain ⟨parent, left⟩ := r
      obtain ⟨k, hl, hk⟩ := FileTree.walk_follow_eq_ok_iff.1 hw
      simp only [hw, bind, Except.bind] at h
      split at h
      · cases h
      next hd =>
      split at h
      · cases h
      next hlen =>
      cases h
      exact ⟨before, last, parent, ⟨hc, hn, by simpa using hd, by omega, k, by omega, hl⟩, rfl⟩

theorem locate_create_eq_ok_iff : fs.locate .create p = .ok l ↔
    FileTree.checkPath p = .ok () ∧
      ∃ k, k ≤ linkLimit ∧ Opens fs.tree k (fs.start p) p.steps l := by
  rw [locate_eq_ok_iff]
  refine and_congr_right fun _ => ?_
  constructor
  · intro hx
    obtain ⟨left, hw⟩ := hx
    obtain ⟨k, hl, hk⟩ := FileTree.walk_create_eq_ok_iff.1 hw
    exact ⟨k, by omega, hl⟩
  · intro hx
    obtain ⟨k, hk, hl⟩ := hx
    have hw := FileTree.walk_create_of_opens (linkLimit - k) hl
    rw [Nat.sub_add_cancel hk] at hw
    exact ⟨linkLimit - k, hw⟩

namespace NamesEntry

theorem isDir_parent (h : fs.NamesEntry p before last parent) : fs.tree.isDir parent = true := by
  obtain ⟨k, -, hl⟩ := h.leads
  exact hl.isDir_of_slash_end

theorem isEntryName (h : fs.NamesEntry p before last parent) : isEntryName last = true := by
  have hm : last ∈ p.names := by
    rw [h.names]
    exact List.mem_append_right before List.mem_cons_self
  obtain ⟨hm, hne⟩ := List.mem_filter.1 hm
  obtain ⟨h₀, -, -⟩ := checkPath_eq_ok_iff.1 h.taken
  have hnd := h.notDots
  simp only [FileTree.isDots, Bool.or_eq_false_iff, decide_eq_false_iff_not] at hnd
  exact isEntryName_iff.2 ⟨hnd.1.1, hnd.1.2, hnd.2, Path.slash_notMem_of_mem_segments hm,
    fun hb => h₀ (Path.mem_of_mem_segments hm hb).1, h.short⟩

theorem isPlace (h : fs.NamesEntry p before last parent)
    (hd : fs.tree.isDir (last :: parent) = false) : fs.tree.IsPlace (last :: parent) :=
  FileTree.isPlace_cons h.isDir_parent h.isEntryName hd

theorem of_agree {fs' : FileSystem} {x : Location}
    (hx : ∀ n, fs.tree.get? x = some n → n.isLink = false ∧ n.isDir = false)
    (hsame : ∀ l', l' ≠ x → fs'.tree.get? l' = fs.tree.get? l') (hcwd : fs'.cwd = fs.cwd)
    (h : fs.NamesEntry p before last parent) : fs'.NamesEntry p before last parent := by
  obtain ⟨k, hk, hl⟩ := h.leads
  have hne : parent ≠ x := by
    rintro rfl
    obtain ⟨mode, hm⟩ := FileTree.isDir_iff.1 h.isDir_parent
    cases (hx _ hm).2
  exact ⟨h.taken, h.names, h.notDots, h.short, k, hk, start_congr hcwd p ▸ hl.of_agree hx hsame hne⟩

end NamesEntry

theorem resolveEntry_put {x : Location} {n : Node} (hx : fs.tree.IsPlace x)
    (hold : ∀ d, fs.tree.get? x = some d → d.isLink = false) (hn : n.isLink = false)
    (hn' : n.isDir = false) :
    (fs.put x n).tree.resolveEntry fs.cwd p = .ok l ↔ fs.tree.resolveEntry fs.cwd p = .ok l := by
  have hsame : ∀ l', l' ≠ x → (fs.put x n).tree.get? l' = fs.tree.get? l' :=
    fun l' hne => hx.get?_put_of_ne n hne
  have hnew : ∀ d, (fs.put x n).tree.get? x = some d → d.isLink = false ∧ d.isDir = false := by
    intro d hd
    obtain rfl := Option.some.inj ((hx.get?_put_self n).symm.trans hd)
    exact ⟨hn, hn'⟩
  have hfree : ∀ d, fs.tree.get? x = some d → d.isLink = false ∧ d.isDir = false := by
    intro d hd
    exact ⟨hold d hd, (FileTree.isDir_of_get? hd).symm.trans hx.free⟩
  constructor
  · intro hr
    obtain ⟨before, last, parent, h, rfl⟩ := exists_namesEntry hr
    exact (h.of_agree hnew (fun l' hne => (hsame l' hne).symm) rfl).resolveEntry
  · intro hr
    obtain ⟨before, last, parent, h, rfl⟩ := exists_namesEntry hr
    exact (h.of_agree hfree hsame rfl).resolveEntry

end ResourceManifest.FileSystem
