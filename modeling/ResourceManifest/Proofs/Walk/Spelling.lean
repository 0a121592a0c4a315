import ResourceManifest.Proofs.Walk.Seen

set_option autoImplicit false

namespace ResourceManifest.Walk

variable {σ : Type} {fs : FileSystem} {followLinks : Bool} {guard : Guard σ} {s s' : σ}
  {root root' : Path}

/-- An entry is the same under two paths, or at fault under both, if a link leads to the same from
there. -/
theorem plainKind_of_looks {above above' : List Ancestor} {p p' : Path} {n : Node} (followLinks : Bool)
    (habove : above'.map Ancestor.location = above.map Ancestor.location)
    (hl : n.isLink = true → SameSuccess (fs.look .follow p) (fs.look .follow p')) :
    plainKind fs followLinks above' p' n = plainKind fs followLinks above p n ∨
    ∃ f f', plainKind fs followLinks above p n = .broken f ∧
      plainKind fs followLinks above' p' n = .broken f' := by
  cases n with
  | link target =>
    rcases (hl rfl).oks_or_errors with ⟨⟨l, d⟩, hx, hx'⟩ | ⟨f, f', hx, hx'⟩
    · have hmem : ∀ xs : List Ancestor, xs.find? (·.location = l) = none ↔
          l ∉ xs.map Ancestor.location := by
        intro xs
        rw [find?_location_eq_none_iff]
        simp
      have hnone : above'.find? (·.location = l) = none ↔
          above.find? (·.location = l) = none := by
        rw [hmem, hmem, habove]
      by_cases hdir : d.isFile = false ∧ d.isDir = true ∧ followLinks = true
      · obtain ⟨hfile, hd, rfl⟩ := hdir
        simp only [plainKind, hx, hx', hfile, hd, Bool.false_eq_true, if_false, and_self, if_true]
        cases hf : above.find? (·.location = l) with
        | none =>
          rw [hnone.2 hf]
          exact .inl rfl
        | some a =>
          cases hf' : above'.find? (·.location = l) with
          | none => cases (hnone.1 hf').symm.trans hf
          | some a' => exact .inr ⟨_, _, rfl, rfl⟩
      · left
        simp only [plainKind, hx, hx']
        cases hfile : d.isFile with
        | true => rfl
        | false =>
          have hno : ¬(d.isDir = true ∧ followLinks = true) := fun hd => hdir ⟨hfile, hd⟩
          simp only [hno, if_false]
    · cases followLinks with
      | false => simp [plainKind, hx, hx']
      | true => exact .inr ⟨.file p f, .file p' f', by simp [plainKind, hx], by simp [plainKind, hx']⟩
  | _ => exact .inl rfl

/-- What two walks know of an entry of a directory to which the same names have led them. -/
structure SpelledAlike (fs : FileSystem) (followLinks : Bool) (guard : Guard σ) (s s' : σ)
    (root root' : Path) : Prop where
  skips : ∀ v up v' up', Visited fs followLinks guard s root v up →
    Visited fs followLinks guard s' root' v' up' → v'.names = v.names →
    v'.location = v.location → ∀ name, isEntryName name = true → ∀ isDir,
      guard.skips v'.known (v'.child root' name) isDir =
        guard.skips v.known (v.child root name) isDir
  looks : ∀ v up v' up', Visited fs followLinks guard s root v up →
    Visited fs followLinks guard s' root' v' up' → v'.names = v.names →
    v'.location = v.location → ∀ name n, fs.tree.get? (name :: v.location) = some n →
      n.isLink = true ∨ n.isDir = true ∧ guard.skips v.known (v.child root name) true = false →
      SameSuccess (fs.look .follow (v.child root name)) (fs.look .follow (v'.child root' name))
  ends : ∀ v up v' up', Visited fs followLinks guard s root v up →
    Visited fs followLinks guard s' root' v' up' → v'.names = v.names →
    v'.location = v.location → ∀ name n, fs.tree.get? (name :: v.location) = some n →
      plainKind fs followLinks ((v :: up).map (Visit.ancestor root)) (v.child root name) n =
        .directory →
      (guard.endless? fs (v.child root name) = none ↔
        guard.endless? fs (v'.child root' name) = none)

section Inside

variable {v v' : Visit σ} {up up' : List (Visit σ)}

theorem map_location_ancestors (root root' : Path) (hloc : v'.location = v.location)
    (hup : up'.map Visit.location = up.map Visit.location) :
    ((v' :: up').map (Visit.ancestor root')).map Ancestor.location =
      ((v :: up).map (Visit.ancestor root)).map Ancestor.location := by
  simpa [Function.comp_def, Visit.ancestor, hloc] using hup

theorem SpelledAlike.inside_of_found (h : SpelledAlike fs followLinks guard s s' root root')
    {levels : Nat} (hv : Visited fs followLinks guard s root v up)
    (hv' : Visited fs followLinks guard s' root' v' up') (hnames : v'.names = v.names)
    (hloc : v'.location = v.location) (hup : up'.map Visit.location = up.map Visit.location)
    (hin : ∀ name n, fs.tree.get? (name :: v.location) = some n →
      kind fs guard followLinks ((v :: up).map (Visit.ancestor root)) (v.child root name) n =
        .directory →
      guard.skips v.known (v.child root name) true = false →
      SameSuccess (fs.look .follow (v.child root name)) (fs.look .follow (v'.child root' name)) →
      SameFinds
        (found fs followLinks guard levels ((v :: up).map (Visit.ancestor root)) v.known
          (v.child root name))
        (found fs followLinks guard levels ((v' :: up').map (Visit.ancestor root')) v'.known
          (v'.child root' name))) :
    SameFinds (inside fs followLinks guard root levels v up)
      (inside fs followLinks guard root' levels v' up') := by
  have habove := map_location_ancestors root root' hloc hup
  unfold Walk.inside
  rw [hloc]
  refine List.rel_flatMap (R := fun n m => n = m ∧ n ∈ fs.tree.names v.location)
    (List.forall₂_same.2 fun n hn => ⟨rfl, hn⟩) fun name name' hn => ?_
  obtain ⟨rfl, hn⟩ := hn
  obtain ⟨n, hg⟩ := FileTree.mem_names_iff.1 hn
  have hname := FileTree.isEntryName_of_get? hg
  have hlooks := h.looks v up v' up' hv hv' hnames hloc name n hg
  refine atEntry_of_kinds hg hg ?_ (h.skips v up v' up' hv hv' hnames hloc name hname)
    fun hk hs => hin name n hg hk hs (hlooks ?_)
  · exact kind_of_plainKinds
      (plainKind_of_looks followLinks habove fun hlink => hlooks (.inl hlink))
      (h.ends v up v' up' hv hv' hnames hloc name n hg)
  · rcases plainKind_eq_directory_iff.1 (kind_eq_directory_iff.1 hk).1 with hd | ⟨hlink, -⟩
    · exact .inr ⟨hd, hs⟩
    · exact .inl hlink

theorem SpelledAlike.inside (h : SpelledAlike fs followLinks guard s s' root root') (levels : Nat)
    (hv : Visited fs followLinks guard s root v up)
    (hv' : Visited fs followLinks guard s' root' v' up') (hnames : v'.names = v.names)
    (hloc : v'.location = v.location) (hup : up'.map Visit.location = up.map Visit.location) :
    SameFinds (inside fs followLinks guard root levels v up)
      (inside fs followLinks guard root' levels v' up') := by
  -- On the levels that are left, which are as many for both walks. A directory entered by one is
  -- entered by the other.
  induction levels generalizing v v' up up' with
  | zero => exact h.inside_of_found hv hv' hnames hloc hup fun _ _ _ _ _ _ => .nil
  | succ levels ih =>
    refine h.inside_of_found hv hv' hnames hloc hup fun name n hg hk hs hlook => ?_
    rcases hlook.oks_or_errors with ⟨⟨l, d⟩, hl, hl'⟩ | ⟨f, f', hl, hl'⟩
    · have hkinds := kind_of_plainKinds
        (plainKind_of_looks (n := n) followLinks (map_location_ancestors root root' hloc hup)
          fun _ => hlook)
        (h.ends v up v' up' hv hv' hnames hloc name n hg)
      have hk' := (hkinds.resolve_right fun ⟨f, f', hf, _⟩ => by cases hk.symm.trans hf).trans hk
      have hname := FileTree.isEntryName_of_get? hg
      have hs' := (h.skips v up v' up' hv hv' hnames hloc name hname true).trans hs
      have hd := (isDir_of_kind hv.reaches.1 hg hk hl).1
      rw [found_child n.isLink hl hd, found_child n.isLink hl' hd]
      refine ih (.entry hv hg hk hs hl) (.entry hv' (hloc ▸ hg) hk' hs' hl') ?_ rfl ?_
      · simp only [hnames]
      · simp only [List.map_cons, hloc, hup]
    · rw [found_of_error hl, found_of_error hl']
      exact .cons (.of_errors _ _) .nil

end Inside

theorem SpelledAlike.found (h : SpelledAlike fs followLinks guard s s' root root') {r : Location}
    {d : Node} (hl : fs.look .follow root = .ok (r, d)) (hl' : fs.look .follow root' = .ok (r, d))
    (hd : d.isDir = true) :
    SameFinds (found fs followLinks guard (pathLimit + 1) [] s root)
      (found fs followLinks guard (pathLimit + 1) [] s' root') := by
  obtain ⟨hr, hg⟩ := FileSystem.look_follow_eq_ok_iff.1 hl
  obtain ⟨top, hk⟩ := hr.look_keep hg
  obtain ⟨hr', -⟩ := FileSystem.look_follow_eq_ok_iff.1 hl'
  obtain ⟨top', hk'⟩ := hr'.look_keep hg
  rw [found_root top.2.isLink hl hd, found_root top'.2.isLink hl' hd]
  exact h.inside pathLimit (.root hl hd hk) (.root hl' hd hk') rfl rfl rfl

end ResourceManifest.Walk
