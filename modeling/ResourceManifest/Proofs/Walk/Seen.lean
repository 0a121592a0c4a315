import Mathlib.Data.List.Forall2
import ResourceManifest.Proofs.FileSystem.Alike
import ResourceManifest.Proofs.Walk.Member

/-!
What a walk sees of a file system: the entries of the directories that it visits, but for those that
come to nothing, and where their names lead. In two file systems that are alike in that, it finds
the same files, with as many faults in the same places between them.
-/

set_option autoImplicit false

namespace ResourceManifest

namespace Walk

variable {σ : Type} {fs fs' : FileSystem} {followLinks : Bool} {guard : Guard σ} {s : σ}
  {root : Path}

abbrev SameFinds : Finds → Finds → Prop := List.Forall₂ SameSuccess

theorem SameFinds.refl (xs : Finds) : SameFinds xs xs :=
  List.forall₂_same.2 fun x _ => SameSuccess.refl x

theorem SameFinds.map_cons {xs ys : Finds} (h : SameFinds xs ys) (name : Name) :
    SameFinds (xs.map fun x => x.map (name :: ·)) (ys.map fun x => x.map (name :: ·)) :=
  List.rel_map (fun _ _ hxy => hxy.map (name :: ·)) h

theorem SameFinds.symm {xs ys : Finds} (h : SameFinds xs ys) : SameFinds ys xs :=
  (List.Forall₂.imp (fun _ _ hxy => hxy.symm) h).flip

theorem SameFinds.eq_map_ok {names : List (List Name)} {ys : Finds}
    (h : SameFinds (names.map .ok) ys) : ys = names.map .ok := by
  induction names generalizing ys with
  | nil => exact List.forall₂_nil_left_iff.1 h
  | cons ns names ih =>
    rw [List.map_cons] at h
    cases h with
    | cons hx hys => rw [List.map_cons, (hx ns).1 rfl, ih hys]

section Entry

variable {above : List Ancestor} {p : Path} {l : Location} {n n' : Node} {name : Name}

theorem plainKind_of_looksAlike (followLinks : Bool) (above : List Ancestor)
    (hn : n.blank = n'.blank) (hl : fs.LooksAlike fs' p) :
    plainKind fs' followLinks above p n' = plainKind fs followLinks above p n ∨
    ∃ f f', plainKind fs followLinks above p n = .broken f ∧
      plainKind fs' followLinks above p n' = .broken f' := by
  rcases Node.eq_or_file_of_blank hn with rfl | ⟨mode, c, c', rfl, rfl⟩
  · cases n with
    | link target =>
      rcases hl with ⟨f, f', hl, hl'⟩ | ⟨l, d, d', hl, hl', hd⟩
      · cases followLinks with
        | false => simp [plainKind, hl, hl']
        | true => exact .inr ⟨.file p f, .file p f', by simp [plainKind, hl], by simp [plainKind, hl']⟩
      · simp only [plainKind, hl, hl', Node.isDir_eq_of_blank hd, Node.isFile_eq_of_blank hd]
        exact .inl trivial
    | _ => exact .inl rfl
  · exact .inl rfl

/-- Two walks that read without an end at the same directories differ on an entry only if they
differ on what it is by itself. -/
theorem kind_of_plainKinds {above' : List Ancestor} {p' : Path}
    (hk : plainKind fs' followLinks above' p' n' = plainKind fs followLinks above p n ∨
      ∃ f f', plainKind fs followLinks above p n = .broken f ∧
        plainKind fs' followLinks above' p' n' = .broken f')
    (he : plainKind fs followLinks above p n = .directory →
      (guard.endless? fs p = none ↔ guard.endless? fs' p' = none)) :
    kind fs' guard followLinks above' p' n' = kind fs guard followLinks above p n ∨
    ∃ f f', kind fs guard followLinks above p n = .broken f ∧
      kind fs' guard followLinks above' p' n' = .broken f' := by
  rcases hk with hk | ⟨f, f', hk, hk'⟩
  · cases hp : plainKind fs followLinks above p n with
    | directory =>
      simp only [kind, hk, hp]
      cases hg : guard.endless? fs p with
      | none => simp [(he hp).1 hg]
      | some file =>
        cases hg' : guard.endless? fs' p' with
        | none => cases hg.symm.trans ((he hp).2 hg')
        | some file' => exact .inr ⟨_, _, rfl, rfl⟩
    | _ => simp [kind, hk, hp]
  · exact .inr ⟨f, f', kind_eq_broken_iff.2 (.inl hk), kind_eq_broken_iff.2 (.inl hk')⟩

theorem atEntry_of_kinds {inside inside' : σ → Path → Finds} {above' : List Ancestor} {s' : σ}
    {p' : Path} {l' : Location}
    (hg : fs.tree.get? (name :: l) = some n) (hg' : fs'.tree.get? (name :: l') = some n')
    (hk : kind fs' guard followLinks above' (p'.join name) n' =
        kind fs guard followLinks above (p.join name) n ∨
      ∃ f f', kind fs guard followLinks above (p.join name) n = .broken f ∧
        kind fs' guard followLinks above' (p'.join name) n' = .broken f')
    (hs : ∀ isDir, guard.skips s' (p'.join name) isDir = guard.skips s (p.join name) isDir)
    (hin : kind fs guard followLinks above (p.join name) n = .directory →
      guard.skips s (p.join name) true = false →
      SameFinds (inside s (p.join name)) (inside' s' (p'.join name))) :
    SameFinds (atEntry fs followLinks guard inside above s p l name)
      (atEntry fs' followLinks guard inside' above' s' p' l' name) := by
  unfold atEntry
  simp only [hg, hg', hs]
  rcases hk with hk | ⟨f, f', hk, hk'⟩
  · rw [hk]
    cases hkind : kind fs guard followLinks above (p.join name) n with
    | directory =>
      cases hskip : guard.skips s (p.join name) true with
      | true => exact .nil
      | false => exact (hin hkind hskip).map_cons name
    | _ => exact .refl _
  · rw [hk, hk']
    exact .cons (.of_errors f f') .nil

theorem atEntry_of_looksAlike {inside inside' : σ → Path → Finds}
    (hg : fs.tree.get? (name :: l) = some n) (hg' : fs'.tree.get? (name :: l) = some n')
    (hn : n.blank = n'.blank) (hl : fs.LooksAlike fs' (p.join name))
    (he : plainKind fs followLinks above (p.join name) n = .directory →
      (guard.endless? fs (p.join name) = none ↔ guard.endless? fs' (p.join name) = none))
    (hin : kind fs guard followLinks above (p.join name) n = .directory →
      guard.skips s (p.join name) true = false →
      SameFinds (inside s (p.join name)) (inside' s (p.join name))) :
    SameFinds (atEntry fs followLinks guard inside above s p l name)
      (atEntry fs' followLinks guard inside' above s p l name) :=
  atEntry_of_kinds hg hg' (kind_of_plainKinds (plainKind_of_looksAlike followLinks above hn hl) he)
    (fun _ => rfl) hin

end Entry

def Mute (fs : FileSystem) (followLinks : Bool) (guard : Guard σ) (root : Path) (v : Visit σ)
    (up : List (Visit σ)) (name : Name) : Prop :=
  ∀ inside, atEntry fs followLinks guard inside ((v :: up).map (Visit.ancestor root)) v.known
    (root.joinAll v.names) v.location name = []

/-- If a link stands at the entry and is followed, it is neither broken nor leads back to a
directory that is being walked, and no file is read for a directory there without an end. -/
def Unbroken (fs : FileSystem) (followLinks : Bool) (guard : Guard σ) (root : Path) (v : Visit σ)
    (up : List (Visit σ)) (name : Name) : Prop :=
  ∀ n, fs.tree.get? (name :: v.location) = some n → ∀ f,
    kind fs guard followLinks ((v :: up).map (Visit.ancestor root)) (v.child root name) n ≠ .broken f

theorem unbroken_of_not_followed {v : Visit σ} {up : List (Visit σ)} {name : Name} {target : Path}
    (hg : fs.tree.get? (name :: v.location) = some (.link target)) :
    Unbroken fs false guard root v up name := by
  intro n hn f hf
  obtain rfl := Option.some.inj (hg.symm.trans hn)
  rcases kind_eq_broken_iff.1 hf with hplain | ⟨hplain, -⟩
  · cases (plainKind_eq_broken_iff.1 hplain).2.1
  · rcases plainKind_eq_directory_iff.1 hplain with hd | ⟨-, hfl, -⟩
    · cases hd
    · cases hfl

theorem mute_of_none {v : Visit σ} {up : List (Visit σ)} {name : Name}
    (h : fs.tree.get? (name :: v.location) = none) :
    Mute fs followLinks guard root v up name := by
  intro inside
  simp [atEntry, h]

theorem mute_of_skips {v : Visit σ} {up : List (Visit σ)} {name : Name}
    (hs : ∀ isDir, guard.skips v.known (v.child root name) isDir = true)
    (hb : Unbroken fs followLinks guard root v up name) : Mute fs followLinks guard root v up name := by
  intro inside
  unfold atEntry
  cases hg : fs.tree.get? (name :: v.location) with
  | none => rfl
  | some n =>
    simp only
    cases hk : kind fs guard followLinks ((v :: up).map (Visit.ancestor root)) (v.child root name) n with
    | broken f => exact absurd hk (hb n hg f)
    | directory => simp only [hs, if_true]
    | regular => simp only [hs, if_true]
    | other => rfl

/-- The entry is there in both file systems or in neither, the same but for what a file holds, and
its name leads to the same. If it is a directory, what is read there has an end in both or in
neither. -/
structure Shared (fs fs' : FileSystem) (followLinks : Bool) (guard : Guard σ) (root : Path)
    (v : Visit σ) (up : List (Visit σ)) (name : Name) : Prop where
  node : (fs.tree.get? (name :: v.location)).map Node.blank =
    (fs'.tree.get? (name :: v.location)).map Node.blank
  look : fs.LooksAlike fs' (v.child root name)
  ends : ∀ n, fs.tree.get? (name :: v.location) = some n →
    plainKind fs followLinks ((v :: up).map (Visit.ancestor root)) (v.child root name) n =
      .directory →
    (guard.endless? fs (v.child root name) = none ↔
      guard.endless? fs' (v.child root name) = none)

/-- In every directory that a walk visits its guard learns the same from both file systems, and
each entry comes to nothing in both or is shared by them. -/
structure SeenAlike (fs fs' : FileSystem) (followLinks : Bool) (guard : Guard σ) (s : σ)
    (root : Path) : Prop where
  known : ∀ v up, Visited fs followLinks guard s root v up → ∀ k,
    guard.enter fs k (root.joinAll v.names) = guard.enter fs' k (root.joinAll v.names)
  entries : ∀ v up, Visited fs followLinks guard s root v up → ∀ name,
    (Mute fs followLinks guard root v up name ∧ Mute fs' followLinks guard root v up name) ∨
    Shared fs fs' followLinks guard root v up name

theorem Shared.get?_cases {v : Visit σ} {up : List (Visit σ)} {name : Name}
    (h : Shared fs fs' followLinks guard root v up name) :
    (fs.tree.get? (name :: v.location) = none ∧ fs'.tree.get? (name :: v.location) = none) ∨
    ∃ n n', fs.tree.get? (name :: v.location) = some n ∧
      fs'.tree.get? (name :: v.location) = some n' ∧ n.blank = n'.blank := by
  have hnode := h.node
  cases hg : fs.tree.get? (name :: v.location) with
  | none =>
    cases hg' : fs'.tree.get? (name :: v.location) with
    | none => exact .inl ⟨rfl, rfl⟩
    | some n' => simp [hg, hg'] at hnode
  | some n =>
    cases hg' : fs'.tree.get? (name :: v.location) with
    | none => simp [hg, hg'] at hnode
    | some n' => exact .inr ⟨n, n', rfl, rfl, by simpa [hg, hg'] using hnode⟩

theorem flatMap_filter {f : Name → Finds} {q : Name → Bool} {ns : List Name}
    (h : ∀ n ∈ ns, q n = false → f n = []) : (ns.filter q).flatMap f = ns.flatMap f := by
  induction ns with
  | nil => rfl
  | cons n ns ih =>
    have hi := ih fun m hm => h m (List.mem_cons_of_mem n hm)
    cases hq : q n with
    | true => rw [List.filter_cons_of_pos hq, List.flatMap_cons, List.flatMap_cons, hi]
    | false =>
      rw [List.filter_cons_of_neg (by simp [hq]), List.flatMap_cons, hi, h n List.mem_cons_self hq,
        List.nil_append]

theorem names_filter_comm (t t' : FileTree) (l l' : Location) :
    ((t.names l).filter fun n => decide (n ∈ t'.names l')) =
      (t'.names l').filter fun n => decide (n ∈ t.names l) := by
  have hperm := (List.perm_ext_iff_of_nodup
    ((t.names_nodup l).filter fun n => decide (n ∈ t'.names l'))
    ((t'.names_nodup l').filter fun n => decide (n ∈ t.names l))).2 fun n => by
      simp [and_comm]
  exact hperm.eq_of_pairwise (fun _ _ _ _ => List.le_antisymm)
    ((t.names_pairwise l).filter _) ((t'.names_pairwise l').filter _)

section Inside

variable {v : Visit σ} {up : List (Visit σ)}

/-- Entries under names that the other directory lacks come to nothing, so that only the names in
both have to be compared. -/
theorem sameFinds_of_names {l : Location} {f f' : Name → Finds}
    (hf : ∀ n, n ∉ fs'.tree.names l → f n = []) (hf' : ∀ n, n ∉ fs.tree.names l → f' n = [])
    (h : ∀ n, n ∈ fs.tree.names l → n ∈ fs'.tree.names l → SameFinds (f n) (f' n)) :
    SameFinds ((fs.tree.names l).flatMap f) ((fs'.tree.names l).flatMap f') := by
  rw [← flatMap_filter (q := fun n => decide (n ∈ fs'.tree.names l)) fun n _ hn =>
      hf n (of_decide_eq_false hn),
    ← flatMap_filter (q := fun n => decide (n ∈ fs.tree.names l)) fun n _ hn =>
      hf' n (of_decide_eq_false hn),
    names_filter_comm fs'.tree fs.tree]
  refine List.rel_flatMap (R := fun n m => n = m ∧ n ∈ fs.tree.names l ∧ n ∈ fs'.tree.names l)
    (List.forall₂_same.2 fun n hn => ?_) fun n m hnm => ?_
  · simpa using List.mem_filter.1 hn
  · obtain ⟨rfl, hn, hn'⟩ := hnm
    exact h n hn hn'

theorem SeenAlike.inside_of_found (h : SeenAlike fs fs' followLinks guard s root) {levels : Nat}
    (hv : Visited fs followLinks guard s root v up)
    (hin : ∀ name n, fs.tree.get? (name :: v.location) = some n →
      kind fs guard followLinks ((v :: up).map (Visit.ancestor root)) (v.child root name) n =
        .directory →
      guard.skips v.known (v.child root name) true = false →
      fs.LooksAlike fs' (v.child root name) →
      SameFinds
        (found fs followLinks guard levels ((v :: up).map (Visit.ancestor root)) v.known
          (v.child root name))
        (found fs' followLinks guard levels ((v :: up).map (Visit.ancestor root)) v.known
          (v.child root name))) :
    SameFinds (inside fs followLinks guard root levels v up)
      (inside fs' followLinks guard root levels v up) := by
  have hnone : ∀ name, fs.tree.get? (name :: v.location) = none →
      Mute fs' followLinks guard root v up name := by
    intro name hg
    rcases h.entries v up hv name with ⟨-, hmute⟩ | hshared
    · exact hmute
    · rcases hshared.get?_cases with ⟨-, hg'⟩ | ⟨n, n', hg', -, -⟩
      · exact mute_of_none hg'
      · cases hg.symm.trans hg'
  have hnone' : ∀ name, fs'.tree.get? (name :: v.location) = none →
      Mute fs followLinks guard root v up name := by
    intro name hg
    rcases h.entries v up hv name with ⟨hmute, -⟩ | hshared
    · exact hmute
    · rcases hshared.get?_cases with ⟨hg', -⟩ | ⟨n, n', -, hg', -⟩
      · exact mute_of_none hg'
      · cases hg.symm.trans hg'
  refine sameFinds_of_names (fun name hn => hnone' name ?_ _) (fun name hn => hnone name ?_ _)
    fun name _ _ => ?_
  · simpa [FileTree.mem_names_iff, ← Option.ne_none_iff_exists'] using hn
  · simpa [FileTree.mem_names_iff, ← Option.ne_none_iff_exists'] using hn
  · rcases h.entries v up hv name with ⟨hmute, hmute'⟩ | hshared
    · rw [hmute, hmute']
      exact .nil
    · rcases hshared.get?_cases with ⟨hg, hg'⟩ | ⟨n, n', hg, hg', hn⟩
      · rw [mute_of_none hg, mute_of_none hg']
        exact .nil
      · exact atEntry_of_looksAlike hg hg' hn hshared.look (hshared.ends n hg) fun hk hs =>
          hin name n hg hk hs hshared.look

theorem SeenAlike.inside (h : SeenAlike fs fs' followLinks guard s root) (levels : Nat)
    (hv : Visited fs followLinks guard s root v up) :
    SameFinds (inside fs followLinks guard root levels v up)
      (inside fs' followLinks guard root levels v up) := by
  -- On the levels that are left. A directory that is entered is one that is visited, so that its
  -- entries are seen alike as well.
  induction levels generalizing v up with
  | zero => exact h.inside_of_found hv fun _ _ _ _ _ _ => .nil
  | succ levels ih =>
    refine h.inside_of_found hv fun name n hg hk hs hlook => ?_
    rcases hlook with ⟨f, f', hl, hl'⟩ | ⟨l, d, d', hl, hl', hd⟩
    · rw [found_of_error hl, found_of_error hl']
      exact .cons (.of_errors _ _) .nil
    · have hdir := (isDir_of_kind hv.reaches.1 hg hk hl).1
      have hv' := Visited.entry hv hg hk hs hl
      have hknown := h.known _ _ hv' v.known
      rw [← child_eq] at hknown
      rw [found_child n.isLink hl hdir,
        found_child n.isLink hl' (Node.isDir_eq_of_blank hd ▸ hdir), ← hknown]
      exact ih hv'

end Inside

theorem Visited.exists_look_root {v : Visit σ} {up : List (Visit σ)}
    (hv : Visited fs followLinks guard s root v up) :
    ∃ r d, fs.look .follow root = .ok (r, d) ∧ d.isDir = true := by
  induction hv with
  | root h hd _ => exact ⟨_, _, h, hd⟩
  | entry _ _ _ _ _ ih => exact ih

theorem Visited.eq_root {r : Location} {d : Node} (hl : fs.look .follow root = .ok (r, d))
    (hleaf : ∀ name ∈ fs.tree.names r, ∀ n ∈ fs.tree.get? (name :: r),
      kind fs guard followLinks [⟨root, r⟩] (root.join name) n = .directory →
      guard.skips (guard.enter fs s root) (root.join name) true = true)
    {v : Visit σ} {up : List (Visit σ)} (hv : Visited fs followLinks guard s root v up) :
    v.names = [] ∧ v.location = r ∧ v.known = guard.enter fs s root ∧ up = [] := by
  induction hv with
  | root hl' _ _ =>
    cases hl.symm.trans hl'
    exact ⟨rfl, rfl, rfl, rfl⟩
  | @entry v up name n d m _ hg hk hs _ ih =>
    obtain ⟨hnames, rfl, hknown, rfl⟩ := ih
    rw [hknown] at hs
    simp only [List.map_cons, List.map_nil, Visit.ancestor, Visit.child, hnames,
      Path.joinAll_nil] at hk hs
    have hskip := hleaf name (FileTree.mem_names_iff.2 ⟨n, hg⟩) n hg hk
    cases hskip.symm.trans hs

theorem SeenAlike.found (h : SeenAlike fs fs' followLinks guard s root) {r : Location} {d d' : Node}
    (hl : fs.look .follow root = .ok (r, d)) (hl' : fs'.look .follow root = .ok (r, d'))
    (hd : d.isDir = true) (hd' : d'.isDir = true) :
    SameFinds (found fs followLinks guard (pathLimit + 1) [] s root)
      (found fs' followLinks guard (pathLimit + 1) [] s root) := by
  obtain ⟨hr, hg⟩ := FileSystem.look_follow_eq_ok_iff.1 hl
  obtain ⟨top, hk⟩ := hr.look_keep hg
  have hv : Visited fs followLinks guard s root _ _ := .root hl hd hk
  have hknown := h.known _ _ hv s
  rw [Path.joinAll_nil] at hknown
  rw [found_root top.2.isLink hl hd, found_root top.2.isLink hl' hd', ← hknown]
  exact h.inside pathLimit hv

end Walk

end ResourceManifest
