import ResourceManifest.Proofs.FileSystem.Alike

set_option autoImplicit false

namespace ResourceManifest.FileSystem

variable {fs fs' : FileSystem} {l m : Location} {p : Path} {mode : Nat} {c c' : Bytes} {n : Node}

/-- The file at `l` held `c` and now holds `c'`. Where there was no file, `c` is empty. -/
structure Rewrote (fs fs' : FileSystem) (l : Location) (mode : Nat) (c c' : Bytes) : Prop
    extends fs.Wrote fs' l mode c' where
  before : fs.tree.get? l = some (.file mode c) ∨ fs.tree.get? l = none ∧ c = []

theorem rewrote_put (h : fs.tree.IsPlace l) (c' : Bytes)
    (hbefore : fs.tree.get? l = some (.file mode c) ∨ fs.tree.get? l = none ∧ c = []) :
    fs.Rewrote (fs.put l (.file mode c')) l mode c c' :=
  ⟨wrote_put h mode c', hbefore⟩

def leadsTo (fs : FileSystem) (l : Location) (p : Path) : Bool :=
  (fs.locate .follow p).toOption = some l

theorem leadsTo_iff : fs.leadsTo l p = true ↔ fs.Reaches p l := by
  rw [← locate_follow_eq_ok_iff, leadsTo, decide_eq_true_eq]
  cases fs.locate .follow p <;> simp [Except.toOption]

namespace Rewrote

theorem isFile_before (h : fs.Rewrote fs' l mode c c') (hn : fs.tree.get? l = some n) :
    n = .file mode c := by
  rcases h.before with hg | ⟨hg, -⟩
  · exact Option.some.inj (hn.symm.trans hg)
  · cases hn.symm.trans hg

theorem ne_of_isDir (h : fs.Rewrote fs' l mode c c') (hn : fs'.tree.get? m = some n)
    (hd : n.isDir = true) : m ≠ l := by
  rintro rfl
  obtain rfl := Option.some.inj (hn.symm.trans h.written)
  cases hd

theorem look_iff (h : fs.Rewrote fs' l mode c c') (hne : m ≠ l) :
    fs'.look .follow p = .ok (m, n) ↔ fs.look .follow p = .ok (m, n) := by
  rw [look_follow_eq_ok_iff, look_follow_eq_ok_iff, h.others m hne]
  refine and_congr_left fun _ => ⟨fun hr => ?_, fun hr => ?_⟩
  · refine hr.of_agree h.cwd.symm (fun d hd => ?_) (fun l' hl' => (h.others l' hl').symm) hne
    obtain rfl := Option.some.inj (h.written.symm.trans hd)
    exact ⟨rfl, rfl⟩
  · refine hr.of_agree h.cwd (fun d hd => ?_) h.others hne
    obtain rfl := h.isFile_before hd
    exact ⟨rfl, rfl⟩

theorem reaches_self_iff (h : fs.Rewrote fs' l mode c c')
    (hg : fs.tree.get? l = some (.file mode c)) : fs'.Reaches p l ↔ fs.Reaches p l := by
  rw [← locate_follow_eq_ok_iff, ← locate_follow_eq_ok_iff, (h.toWrote.alike hg).locate]

theorem reaches_self (h : fs.Rewrote fs' l mode c c') (hl : fs.look .follow p = .ok (l, n)) :
    fs'.Reaches p l := by
  obtain ⟨hr, hg⟩ := look_follow_eq_ok_iff.1 hl
  obtain rfl := h.isFile_before hg
  exact (h.reaches_self_iff hg).2 hr

theorem look_of_not_reaches (h : fs.Rewrote fs' l mode c c') (hp : ¬ fs'.Reaches p l) :
    SameSuccess (fs'.look .follow p) (fs.look .follow p) := by
  rintro ⟨m, n⟩
  by_cases hm : m = l
  · subst hm
    refine iff_of_false (fun hl => hp ?_) fun hl => hp (h.reaches_self hl)
    exact (look_follow_eq_ok_iff.1 hl).1
  · exact h.look_iff hm

theorem contents_cases (h : fs.Rewrote fs' l mode c c') (p : Path) :
    SameSuccess (fs'.contents p) (fs.contents p) ∨
    fs'.contents p = .ok (some c') ∧
      (fs.contents p = .ok (some c) ∨ c = [] ∧ ∃ f, fs.contents p = .error f) := by
  by_cases hp : fs'.Reaches p l
  · refine .inr ⟨contents_of_reaches hp h.written, ?_⟩
    rcases h.before with hg | ⟨hg, hc⟩
    · exact .inl (contents_of_reaches ((h.reaches_self_iff hg).1 hp) hg)
    · refine .inr ⟨hc, ?_⟩
      cases hr : fs.contents p with
      | error f => exact ⟨f, rfl⟩
      | ok x =>
        -- The path would lead to where it leads now, and there is nothing.
        obtain ⟨d, hstat⟩ := exists_stat_of_contents hr
        obtain ⟨m, hlook⟩ := stat_eq_ok_iff.1 hstat
        have hm : m ≠ l := by
          rintro rfl
          cases hg.symm.trans (look_follow_eq_ok_iff.1 hlook).2
        exact absurd ((look_follow_eq_ok_iff.1 ((h.look_iff hm).2 hlook)).1.deterministic hp) hm
  · exact .inl (contents_of_sameSuccess (h.look_of_not_reaches hp))

end Rewrote

end ResourceManifest.FileSystem
