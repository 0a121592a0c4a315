import ResourceManifest.Proofs.FileSystem.Rewrite
import ResourceManifest.Proofs.Walk.Member

/-!
A walk with a guard that skips more, after a file has been written. It enters no directory that it
did not enter before, and what it finds it found before, or over a path that leads to a new file.
-/

set_option autoImplicit false

namespace ResourceManifest.Walk

variable {σ : Type} {fs fs' : FileSystem} {followLinks : Bool} {guard : Guard σ} {s s' : σ}
  {root : Path} {l : Location} {mode : Nat} {c c' : Bytes} {R : σ → σ → Prop} {ns : List Name}

section Kind

variable {above : List Ancestor} {p : Path} {n : Node}

theorem plainKind_directory_of_rewrote (hw : fs.Rewrote fs' l mode c c')
    (hk : plainKind fs' followLinks above p n = .directory) :
    plainKind fs followLinks above p n = .directory := by
  rw [plainKind_eq_directory_iff] at hk ⊢
  refine hk.imp_right fun hlink => ?_
  obtain ⟨hn, hfl, m, d, hl, hd, habove⟩ := hlink
  refine ⟨hn, hfl, m, d, (hw.look_iff ?_).1 hl, hd, habove⟩
  exact hw.ne_of_isDir (FileSystem.look_follow_eq_ok_iff.1 hl).2 hd

theorem kind_regular_of_rewrote (hw : fs.Rewrote fs' l mode c c')
    (hk : kind fs' guard followLinks above p n = .regular) :
    kind fs guard followLinks above p n = .regular ∨ fs'.Reaches p l ∧ fs.tree.get? l = none := by
  rw [kind_eq_regular_iff] at hk ⊢
  rcases hk with hn | ⟨hn, m, d, hl, hd⟩
  · exact .inl (.inl hn)
  · by_cases hm : m = l
    · subst hm
      have hr := (FileSystem.look_follow_eq_ok_iff.1 hl).1
      rcases hw.before with hg | ⟨hg, -⟩
      · have hl₀ := FileSystem.look_follow_eq_ok_iff.2 ⟨(hw.reaches_self_iff hg).1 hr, hg⟩
        exact .inl (.inr ⟨hn, m, _, hl₀, rfl⟩)
      · exact .inr ⟨hr, hg⟩
    · exact .inl (.inr ⟨hn, m, d, (hw.look_iff hm).1 hl, hd⟩)

end Kind

/-- What is known in the second file system makes the guard skip what it skips in the first. -/
structure Tightens (fs fs' : FileSystem) (guard : Guard σ) (R : σ → σ → Prop) : Prop where
  ends : ∀ p, guard.endless? fs' p = none → guard.endless? fs p = none
  enter : ∀ {s s' : σ} (p : Path), R s s' → R (guard.enter fs s p) (guard.enter fs' s' p)
  skips : ∀ {s s' : σ} {p : Path} {isDir : Bool}, R s s' → guard.skips s p isDir = true →
    guard.skips s' p isDir = true

theorem Tightens.kind_directory (ht : Tightens fs fs' guard R) (hw : fs.Rewrote fs' l mode c c')
    {above : List Ancestor} {p : Path} {n : Node}
    (hk : kind fs' guard followLinks above p n = .directory) :
    kind fs guard followLinks above p n = .directory := by
  rw [kind_eq_directory_iff] at hk ⊢
  exact ⟨plainKind_directory_of_rewrote hw hk.1, ht.ends p hk.2⟩

theorem Tightens.not_skips (ht : Tightens fs fs' guard R) {p : Path} {isDir : Bool} (hR : R s s')
    (hs : guard.skips s' p isDir = false) : guard.skips s p isDir = false := by
  refine Bool.eq_false_iff.2 fun hskip => ?_
  rw [ht.skips hR hskip] at hs
  cases hs

structure Twins (root : Path) (R : σ → σ → Prop) (v v' : Visit σ) (up up' : List (Visit σ)) :
    Prop where
  names : v.names = v'.names
  location : v.location = v'.location
  known : R v.known v'.known
  above : (v :: up).map (Visit.ancestor root) = (v' :: up').map (Visit.ancestor root)

theorem Twins.child {v v' : Visit σ} {up up' : List (Visit σ)} (h : Twins root R v v' up up')
    (name : Name) : v.child root name = v'.child root name := by
  rw [Visit.child, Visit.child, h.names]

theorem Visited.exists_twin (hw : fs.Rewrote fs' l mode c c') (ht : Tightens fs fs' guard R)
    (hR : R s s') {v' : Visit σ} {up' : List (Visit σ)}
    (hv : Visited fs' followLinks guard s' root v' up') :
    ∃ v up, Visited fs followLinks guard s root v up ∧ Twins root R v v' up up' := by
  induction hv with
  | @root r d top hl hd _ =>
    have hl₀ := (hw.look_iff (hw.ne_of_isDir (FileSystem.look_follow_eq_ok_iff.1 hl).2 hd)).1 hl
    obtain ⟨hr, hg⟩ := FileSystem.look_follow_eq_ok_iff.1 hl₀
    obtain ⟨top₀, hk⟩ := hr.look_keep hg
    exact ⟨_, [], .root hl₀ hd hk, rfl, rfl, ht.enter root hR, rfl⟩
  | @entry v' up' name n d m hv' hg hk hs hl ih =>
    obtain ⟨v, up, hv, htwin⟩ := ih
    have hd := (isDir_of_kind hv'.reaches.1 hg hk hl).1
    have hm := hw.ne_of_isDir (FileSystem.look_follow_eq_ok_iff.1 hl).2 hd
    -- The entry is a directory or a link, so that it is not the file that was written.
    have hne : name :: v'.location ≠ l := by
      rintro rfl
      obtain rfl := Option.some.inj (hg.symm.trans hw.written)
      cases hk
    have hl₀ := (hw.look_iff hm).1 hl
    rw [hw.others _ hne, ← htwin.location] at hg
    have hk₀ := ht.kind_directory hw hk
    rw [← htwin.above, ← htwin.child] at hk₀
    rw [← htwin.child] at hs hl₀
    refine ⟨_, v :: up, .entry hv hg hk₀ (ht.not_skips htwin.known hs) hl₀, ?_⟩
    refine ⟨by rw [htwin.names], rfl, ?_, ?_⟩
    · rw [← htwin.child]
      exact ht.enter _ htwin.known
    · exact List.cons_eq_cons.2 ⟨by rw [Visit.ancestor, Visit.ancestor, htwin.names], htwin.above⟩

/-- What is found was found before, unless it is the file, which is new then, or a path that leads
to it. -/
theorem mem_found_of_rewrote (hw : fs.Rewrote fs' l mode c c') (ht : Tightens fs fs' guard R)
    (hR : R s s') {r r' : Location} {d d' : Node} (hl : fs.look .follow root = .ok (r, d))
    (hd : d.isDir = true) (hl' : fs'.look .follow root = .ok (r', d')) (hd' : d'.isDir = true)
    (hx : .ok ns ∈ found fs' followLinks guard (pathLimit + 1) [] s' root) :
    .ok ns ∈ found fs followLinks guard (pathLimit + 1) [] s root ∨
      fs.tree.get? l = none ∧ (l.head? = ns.getLast? ∨ fs'.Reaches (root.joinAll ns) l) := by
  obtain ⟨v', up', hv', he⟩ := (mem_found_iff hl' hd').1 hx
  obtain ⟨v, up, hv, htwin⟩ := hv'.exists_twin hw ht hR
  cases he with
  | @regular name n hg hk hs =>
    rw [← htwin.child] at hs
    have hemits : ∀ n₀, fs.tree.get? (name :: v.location) = some n₀ →
        kind fs guard followLinks ((v :: up).map (Visit.ancestor root)) (v.child root name) n₀ =
          .regular →
        .ok (v'.names ++ [name]) ∈ found fs followLinks guard (pathLimit + 1) [] s root := by
      intro n₀ hg₀ hk₀
      rw [← htwin.names]
      exact (mem_found_iff hl hd).2 ⟨v, up, hv, .regular hg₀ hk₀ (ht.not_skips htwin.known hs)⟩
    by_cases hne : name :: v'.location = l
    · rcases hw.before with hg₀ | ⟨hg₀, -⟩
      · rw [← hne, ← htwin.location] at hg₀
        exact .inl (hemits _ hg₀ rfl)
      · exact .inr ⟨hg₀, .inl (by simp [← hne])⟩
    · rw [hw.others _ hne, ← htwin.location] at hg
      rcases kind_regular_of_rewrote hw hk with hk₀ | ⟨hr, hg₀⟩
      · rw [← htwin.above, ← htwin.child] at hk₀
        exact .inl (hemits n hg hk₀)
      · exact .inr ⟨hg₀, .inr (child_eq v' name ▸ hr)⟩

/-- The last of the names is that of a link, in the directory that the others lead to. -/
def EndsInLink (fs : FileSystem) (root : Path) (ns : List Name) : Prop :=
  ∃ ds name m target, ns = ds ++ [name] ∧ fs.Reaches (root.joinAll ds) m ∧
    fs.tree.get? (name :: m) = some (.link target)

theorem head?_or_endsInLink {r : Location} {d : Node} (hl : fs.look .follow root = .ok (r, d))
    (hd : d.isDir = true) (hx : .ok ns ∈ found fs followLinks guard (pathLimit + 1) [] s root)
    (hr : fs.Reaches (root.joinAll ns) l) : l.head? = ns.getLast? ∨ EndsInLink fs root ns := by
  obtain ⟨v, up, hv, he⟩ := (mem_found_iff hl hd).1 hx
  cases he with
  | @regular name n hg hk hs =>
    cases hn : n.isLink with
    | false =>
      rw [← child_eq] at hr
      obtain ⟨k, -, hle⟩ := hv.reaches.1.leads_of_join (FileTree.isEntryName_of_get? hg) hr
      rw [(hle.deterministic (Leads.of_get? hg hn)).1]
      simp
    | true =>
      cases n with
      | link target => exact .inr ⟨_, _, _, _, rfl, hv.reaches.1, hg⟩
      | _ => cases hn

end ResourceManifest.Walk
