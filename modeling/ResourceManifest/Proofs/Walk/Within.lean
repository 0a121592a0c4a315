import Mathlib.Data.List.Basic
import ResourceManifest.Proofs.Walk.Visit

set_option autoImplicit false

namespace ResourceManifest.Walk

variable {σ : Type} {fs : FileSystem} {followLinks : Bool} {guard : Guard σ} {s s' : σ} {p : Path}

section Under

variable {name : Name} {xs : Finds}

def under (name : Name) (xs : Finds) : Finds :=
  xs.filterMap fun
    | .ok ns => (after? [name] ns).map .ok
    | .error _ => none

theorem under_map_ok (name : Name) (names : List (List Name)) :
    under name (names.map .ok) = (names.filterMap (after? [name])).map .ok := by
  rw [under, List.filterMap_map, List.map_filterMap]
  rfl

theorem under_map_cons (hok : ∀ w, .error w ∉ xs) :
    under name (xs.map fun x => x.map (name :: ·)) = xs := by
  rw [under, List.filterMap_map]
  refine (List.filterMap_congr fun x hx => ?_).trans List.filterMap_some
  cases x with
  | error w => exact absurd hx (hok w)
  | ok ns => simp [Except.map, after?]

theorem under_atEntry_of_ne {n : Name} (hne : n ≠ name) {inside : σ → Path → Finds}
    {above : List Ancestor} {p : Path} {l : Location} :
    under name (atEntry fs followLinks guard inside above s p l n) = [] := by
  refine List.filterMap_eq_nil_iff.2 fun x hx => ?_
  cases x with
  | error w => rfl
  | ok ns =>
    obtain ⟨ms, rfl⟩ := eq_cons_of_ok_mem_atEntry hx
    simp [after?, hne.symm]

theorem under_flatMap {f : Name → Finds} {ns : List Name} (hnd : ns.Nodup) (hm : name ∈ ns)
    (hf : ∀ n, n ≠ name → under name (f n) = []) :
    under name (ns.flatMap f) = under name (f name) := by
  have happend : ∀ n ms, under name ((n :: ms).flatMap f) =
      under name (f n) ++ under name (ms.flatMap f) := fun n ms => by
    rw [List.flatMap_cons, under, List.filterMap_append]
    rfl
  induction ns with
  | nil => simp at hm
  | cons n ns ih =>
    obtain ⟨hn, hnd⟩ := List.nodup_cons.1 hnd
    rw [happend]
    by_cases hc : n = name
    · subst hc
      have hnone : under n (ns.flatMap f) = [] := by
        rw [under, List.filterMap_flatMap]
        exact List.flatMap_eq_nil_iff.2 fun m hm => hf m fun h => hn (h ▸ hm)
      rw [hnone, List.append_nil]
    · rw [hf n hc, List.nil_append, ih hnd ((List.mem_cons.1 hm).resolve_left (Ne.symm hc))]

end Under

theorem found_entry {levels mode : Nat} {above : List Ancestor} {l : Location} {d : Node}
    {name : Name} {names : List (List Name)} (h : fs.look .follow p = .ok (l, d))
    (hd : d.isDir = true) (hg : fs.tree.get? (name :: l) = some (.dir mode))
    (hs : guard.skips (guard.enter fs s p) (p.join name) true = false)
    (hf : found fs followLinks guard (levels + 1) above s p = names.map .ok) :
    found fs followLinks guard levels (⟨p, l⟩ :: above) (guard.enter fs s p) (p.join name) =
      (names.filterMap (after? [name])).map .ok := by
  rw [found_of_dir h hd] at hf
  have hk : kind fs guard followLinks (⟨p, l⟩ :: above) (p.join name) (.dir mode) = .directory := by
    refine kind_eq_directory_iff.2 ⟨rfl, Option.eq_none_iff_forall_ne_some.2 fun file he => ?_⟩
    have hk : kind fs guard followLinks (⟨p, l⟩ :: above) (p.join name) (.dir mode) =
        .broken (.endless file) := kind_eq_broken_iff.2 (.inr ⟨rfl, file, he, rfl⟩)
    have hm : (.error (.endless file) : Except WalkFault (List Name)) ∈ names.map .ok :=
      hf ▸ List.mem_flatMap.2 ⟨name, FileTree.mem_names_iff.2 ⟨_, hg⟩,
        (mem_atEntry_iff hg).2 (.inl ⟨_, hk, rfl⟩)⟩
    simp at hm
  have hok : ∀ w, .error w ∉ found fs followLinks guard levels (⟨p, l⟩ :: above)
      (guard.enter fs s p) (p.join name) := by
    intro w hw
    have hm := List.mem_flatMap.2 ⟨name, FileTree.mem_names_iff.2 ⟨_, hg⟩,
      (mem_atEntry_iff hg).2 (.inr (.inl ⟨hk, hs, _, hw, rfl⟩))⟩
    rw [hf] at hm
    simp [Except.map] at hm
  rw [← under_map_ok, ← hf, under_flatMap (fs.tree.names_nodup l)
    (FileTree.mem_names_iff.2 ⟨_, hg⟩) fun n hne => under_atEntry_of_ne hne]
  simp only [atEntry, hg, hk, hs, Bool.false_eq_true, if_false]
  exact (under_map_cons hok).symm

theorem plainKind_of_above {above above' : List Ancestor} {p : Path} {n : Node}
    (h : ∀ a ∈ above', ∃ b ∈ above, b.location = a.location)
    (hk : ∀ f, plainKind fs followLinks above p n ≠ .broken f) :
    plainKind fs followLinks above' p n = plainKind fs followLinks above p n := by
  cases n with
  | link target =>
    cases hl : fs.look .follow p with
    | error f => simp [plainKind, hl]
    | ok x =>
      obtain ⟨l, d⟩ := x
      by_cases hdir : d.isDir = true ∧ followLinks = true
      · have hnone : above.find? (·.location = l) = none := by
          cases hf : above.find? (·.location = l) with
          | none => rfl
          | some a =>
            exact absurd
              (plainKind_eq_broken_iff.2 ⟨rfl, hdir.2, .inr ⟨l, d, hl, hdir.1, a, hf, rfl⟩⟩) (hk _)
        have hnone' : above'.find? (·.location = l) = none := by
          refine find?_location_eq_none_iff.2 fun a ha hal => ?_
          obtain ⟨b, hb, hba⟩ := h a ha
          exact find?_location_eq_none_iff.1 hnone b hb (hba.trans hal)
        simp only [plainKind, hl, hnone, hnone']
      · simp only [plainKind, hl, hdir, if_false]
  | _ => rfl

theorem kind_of_above {above above' : List Ancestor} {p : Path} {n : Node}
    (h : ∀ a ∈ above', ∃ b ∈ above, b.location = a.location)
    (hk : ∀ f, kind fs guard followLinks above p n ≠ .broken f) :
    kind fs guard followLinks above' p n = kind fs guard followLinks above p n := by
  simp only [kind, plainKind_of_above h fun f hf => hk f (kind_eq_broken_iff.2 (.inl hf))]

/-- Where the relation holds between what two walks know in a directory, neither of them skips an
entry that the other does not, and the relation holds again in the directories below. -/
def SkipAlike (guard : Guard σ) (fs : FileSystem) (R : Path → σ → σ → Prop) : Prop :=
  ∀ p s s', R p s s' → ∀ name, isEntryName name = true →
    (∀ isDir, guard.skips s' (p.join name) isDir = guard.skips s (p.join name) isDir) ∧
      R (p.join name) (guard.enter fs s (p.join name)) (guard.enter fs s' (p.join name))

/-- Two walks that come to a directory from different roots find the same there, as long as
levels are left for every path that is short enough. -/
theorem found_eq {R : Path → σ → σ → Prop} (hR : SkipAlike guard fs R) {levels levels' : Nat}
    {above above' : List Ancestor} (hs : R p (guard.enter fs s p) (guard.enter fs s' p))
    (habove : ∀ a ∈ above', ∃ b ∈ above, b.location = a.location)
    (hlev : pathLimit ≤ p.bytes.length + levels) (hlev' : pathLimit ≤ p.bytes.length + levels')
    (hok : ∀ w, .error w ∉ found fs followLinks guard (levels + 1) above s p) :
    found fs followLinks guard (levels' + 1) above' s' p =
      found fs followLinks guard (levels + 1) above s p := by
  -- A step down takes one level of each walk and makes the path longer by a name, so that the
  -- levels last until no directory can be opened by the path.
  induction levels generalizing levels' above above' s s' p with
  | zero =>
    obtain ⟨l, d, h, -⟩ := look_of_found hok
    have hlt := (FileSystem.look_follow_eq_ok_iff.1 h).1.length_lt
    omega
  | succ levels ih =>
    obtain ⟨l, d, h, hd⟩ := look_of_found hok
    have hlt := (FileSystem.look_follow_eq_ok_iff.1 h).1.length_lt
    obtain ⟨levels', rfl⟩ : ∃ k, levels' = k + 1 := ⟨levels' - 1, by omega⟩
    rw [found_of_dir h hd] at hok
    rw [found_of_dir h hd, found_of_dir h hd]
    refine List.flatMap_congr fun name hm => ?_
    obtain ⟨n, hg⟩ := FileTree.mem_names_iff.1 hm
    have hname := FileTree.isEntryName_of_get? hg
    have hlen := Path.length_join (p := p) (n := name)
    have hpos := List.length_pos_iff.2 (isEntryName_iff.1 hname).1
    have hfind : ∀ w, .error w ∉ atEntry fs followLinks guard
        (found fs followLinks guard (levels + 1) (⟨p, l⟩ :: above)) (⟨p, l⟩ :: above)
        (guard.enter fs s p) p l name :=
      fun w hw => hok w (List.mem_flatMap.2 ⟨name, hm, hw⟩)
    have habove' : ∀ a ∈ (⟨p, l⟩ : Ancestor) :: above', ∃ b ∈ (⟨p, l⟩ : Ancestor) :: above,
        b.location = a.location := by
      intro a ha
      rcases List.mem_cons.1 ha with rfl | ha
      · exact ⟨_, List.mem_cons_self, rfl⟩
      · obtain ⟨b, hb, hba⟩ := habove a ha
        exact ⟨b, List.mem_cons_of_mem _ hb, hba⟩
    obtain ⟨hskips, hbelow⟩ := hR _ _ _ hs name hname
    refine atEntry_congr hg (kind_of_above habove' fun f hf => ?_) hskips fun hdir hopen => ?_
    · exact hfind f ((mem_atEntry_iff hg).2 (.inl ⟨f, hf, rfl⟩))
    · refine ih hbelow habove' (by omega) (by omega) fun w hw => ?_
      exact hfind w ((mem_atEntry_iff hg).2 (.inr (.inl ⟨hdir, hopen, _, hw, rfl⟩)))

end ResourceManifest.Walk
