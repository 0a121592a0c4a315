import ResourceManifest.Proofs.Walk.Visit

set_option autoImplicit false

namespace ResourceManifest.Walk

variable {σ : Type} {fs : FileSystem} {followLinks : Bool} {guard : Guard σ} {s : σ} {root : Path}

/-- What is found below a directory that has been entered, with so many levels to go. -/
def inside (fs : FileSystem) (followLinks : Bool) (guard : Guard σ) (root : Path) (levels : Nat)
    (v : Visit σ) (up : List (Visit σ)) : Finds :=
  let above := (v :: up).map (Visit.ancestor root)
  (fs.tree.names v.location).flatMap
    (atEntry fs followLinks guard (found fs followLinks guard levels above) above v.known
      (root.joinAll v.names) v.location)

theorem mem_inside_iff {levels : Nat} {v : Visit σ} {up : List (Visit σ)}
    {x : Except WalkFault (List Name)} : x ∈ inside fs followLinks guard root levels v up ↔
      ∃ name n, fs.tree.get? (name :: v.location) = some n ∧
        x ∈ atEntry fs followLinks guard
          (found fs followLinks guard levels ((v :: up).map (Visit.ancestor root)))
          ((v :: up).map (Visit.ancestor root)) v.known (root.joinAll v.names) v.location name := by
  unfold inside
  rw [List.mem_flatMap]
  constructor
  · intro hx
    obtain ⟨name, hm, hx⟩ := hx
    obtain ⟨n, hn⟩ := FileTree.mem_names_iff.1 hm
    exact ⟨name, n, hn, hx⟩
  · intro hx
    obtain ⟨name, n, hn, hx⟩ := hx
    exact ⟨name, FileTree.mem_names_iff.2 ⟨n, hn⟩, hx⟩

theorem found_root {levels : Nat} {r : Location} {d : Node} (viaLink : Bool)
    (h : fs.look .follow root = .ok (r, d)) (hd : d.isDir = true) :
    found fs followLinks guard (levels + 1) [] s root =
      inside fs followLinks guard root levels ⟨[], r, viaLink, guard.enter fs s root⟩ [] :=
  found_of_dir h hd

theorem found_child {levels : Nat} {v : Visit σ} {up : List (Visit σ)} {name : Name}
    {l : Location} {d : Node} (viaLink : Bool)
    (h : fs.look .follow (v.child root name) = .ok (l, d)) (hd : d.isDir = true) :
    found fs followLinks guard (levels + 1) ((v :: up).map (Visit.ancestor root)) v.known
        (v.child root name) =
      inside fs followLinks guard root levels
        ⟨v.names ++ [name], l, viaLink, guard.enter fs v.known (v.child root name)⟩
        (v :: up) := by
  rw [found_of_dir h hd, inside]
  simp only [List.map_cons, Visit.ancestor, child_eq]

theorem emits_of_mem_inside {levels : Nat} {v : Visit σ} {up : List (Visit σ)}
    {x : Except WalkFault (List Name)} (hv : Visited fs followLinks guard s root v up)
    (hx : x ∈ inside fs followLinks guard root levels v up) :
    ∃ w ws, Visited fs followLinks guard s root w ws ∧
      Emits fs followLinks guard root w ws (x.map (v.names ++ ·)) := by
  induction levels generalizing v up x with
  | zero =>
    obtain ⟨name, n, hg, hx⟩ := mem_inside_iff.1 hx
    rcases (mem_atEntry_iff hg).1 hx with ⟨f, hk, rfl⟩ | ⟨-, -, y, hy, -⟩ | ⟨hk, hs, rfl⟩
    · exact ⟨v, up, hv, .broken hg hk⟩
    · simp [found] at hy
    · exact ⟨v, up, hv, .regular hg hk hs⟩
  | succ levels ih =>
    obtain ⟨name, n, hg, hx⟩ := mem_inside_iff.1 hx
    rcases (mem_atEntry_iff hg).1 hx with ⟨f, hk, rfl⟩ | ⟨hk, hs, y, hy, rfl⟩ | ⟨hk, hs, rfl⟩
    · exact ⟨v, up, hv, .broken hg hk⟩
    · cases hl : fs.look .follow (v.child root name) with
      | error f =>
        rw [found_of_error hl] at hy
        obtain rfl := List.mem_singleton.1 hy
        exact ⟨v, up, hv, .closed hg hk hs hl⟩
      | ok r =>
        obtain ⟨l, d⟩ := r
        have hd := (isDir_of_kind hv.reaches.1 hg hk hl).1
        rw [found_child n.isLink hl hd] at hy
        obtain ⟨w, ws, hw, he⟩ := ih (.entry hv hg hk hs hl) hy
        refine ⟨w, ws, hw, ?_⟩
        cases y with
        | error f => exact he
        | ok ms => simpa [Except.map] using he
    · exact ⟨v, up, hv, .regular hg hk hs⟩

theorem mem_inside_of_emits (levels : Nat) {v : Visit σ} {up : List (Visit σ)}
    {x : Except WalkFault (List Name)} (h : Emits fs followLinks guard root v up x) :
    ∃ y ∈ inside fs followLinks guard root (levels + 1) v up, y.map (v.names ++ ·) = x := by
  cases h with
  | @broken name n f hg hk =>
    exact ⟨.error f, mem_inside_iff.2 ⟨name, n, hg, (mem_atEntry_iff hg).2 (.inl ⟨f, hk, rfl⟩)⟩, rfl⟩
  | @closed name n f hg hk hs hl =>
    refine ⟨.error (.file (v.child root name) f), mem_inside_iff.2 ⟨name, n, hg, ?_⟩, rfl⟩
    refine (mem_atEntry_iff hg).2 (.inr (.inl ⟨hk, hs, .error (.file (v.child root name) f), ?_, rfl⟩))
    rw [found_of_error hl]
    simp
  | @regular name n hg hk hs =>
    refine ⟨.ok [name], mem_inside_iff.2 ⟨name, n, hg, ?_⟩, rfl⟩
    exact (mem_atEntry_iff hg).2 (.inr (.inr ⟨hk, hs, rfl⟩))

theorem mem_found_of_mem_inside {v : Visit σ} {up : List (Visit σ)}
    (h : Visited fs followLinks guard s root v up) {y : Except WalkFault (List Name)}
    (hy : y ∈ inside fs followLinks guard root (pathLimit - up.length) v up) :
    y.map (v.names ++ ·) ∈ found fs followLinks guard (pathLimit + 1) [] s root := by
  induction h generalizing y with
  | @root r d top h hd hk =>
    rw [found_root top.2.isLink h hd]
    cases y <;> exact hy
  | @entry v up name n d l hv hg hk hs hl ih =>
    have hd := (isDir_of_kind hv.reaches.1 hg hk hl).1
    have hlt := (Visited.entry hv hg hk hs hl).length_lt
    -- A directory deeper there is a level less, but its path is longer: where it can still be
    -- entered a level is left.
    obtain ⟨levels, hlev⟩ : ∃ levels, pathLimit - up.length = levels + 1 :=
      ⟨pathLimit - up.length - 1, by simp only [List.length_cons] at hlt; omega⟩
    have hlev' : pathLimit - (v :: up).length = levels := by
      simp only [List.length_cons]
      omega
    rw [hlev', ← found_child n.isLink hl hd] at hy
    have hi := ih (y := y.map (name :: ·)) ?_
    · cases y with
      | error f => exact hi
      | ok ms => simpa [Except.map] using hi
    · rw [hlev]
      refine mem_inside_iff.2 ⟨name, n, hg, (mem_atEntry_iff hg).2 (.inr (.inl ⟨hk, hs, y, ?_, rfl⟩))⟩
      exact hy

theorem exists_get?_of_emits {v : Visit σ} {up : List (Visit σ)} {ns : List Name}
    (hv : Visited fs followLinks guard s root v up)
    (he : Emits fs followLinks guard root v up (.ok ns)) :
    ns ≠ [] ∧ ∀ n ∈ ns, ∃ l d, fs.tree.get? (n :: l) = some d := by
  cases he with
  | @regular name n hg hk hs =>
    refine ⟨by simp, ?_⟩
    intro m hm
    rcases List.mem_append.1 hm with hm | hm
    · exact hv.exists_get? m hm
    · obtain rfl := List.mem_singleton.1 hm
      exact ⟨_, _, hg⟩

theorem mem_found_iff {r : Location} {d : Node} (h : fs.look .follow root = .ok (r, d))
    (hd : d.isDir = true) {x : Except WalkFault (List Name)} :
    x ∈ found fs followLinks guard (pathLimit + 1) [] s root ↔
      ∃ v up, Visited fs followLinks guard s root v up ∧
        Emits fs followLinks guard root v up x := by
  constructor
  · intro hx
    obtain ⟨hr, hg⟩ := FileSystem.look_follow_eq_ok_iff.1 h
    obtain ⟨top, hk⟩ := hr.look_keep hg
    rw [found_root top.2.isLink h hd] at hx
    obtain ⟨v, up, hv, he⟩ := emits_of_mem_inside (.root h hd hk) hx
    refine ⟨v, up, hv, ?_⟩
    cases x <;> exact he
  · intro hx
    obtain ⟨v, up, hv, he⟩ := hx
    have hlt := hv.length_lt
    obtain ⟨levels, hlev⟩ : ∃ levels, pathLimit - up.length = levels + 1 :=
      ⟨pathLimit - up.length - 1, by omega⟩
    obtain ⟨y, hy, rfl⟩ := mem_inside_of_emits levels he
    exact mem_found_of_mem_inside hv (hlev ▸ hy)

theorem exists_endless?_of_mem_files {file : Path}
    (hx : .error (.endless file) ∈ files fs followLinks guard s root) :
    ∃ p, guard.endless? fs p = some file := by
  cases hl : fs.look .follow root with
  | error f =>
    have hstat : fs.stat root = .error f := by
      rw [FileSystem.stat, hl]
      rfl
    unfold files at hx
    split at hx <;> simp [hstat] at hx
  | ok x =>
    obtain ⟨r, d⟩ := x
    cases hd : d.isDir with
    | false =>
      have hstat := FileSystem.stat_eq_ok_iff.2 ⟨r, hl⟩
      unfold files at hx
      split at hx
      · simp at hx
      · simp only [hstat, hd, Bool.false_eq_true, if_false] at hx
        split at hx <;> simp at hx
    | true =>
      rw [files_of_dir hl hd] at hx
      obtain ⟨y, hy, hyx⟩ := List.mem_map.1 hx
      cases y with
      | ok ns => cases hyx
      | error w =>
        obtain rfl := Except.error.inj hyx
        obtain ⟨v, up, hv, he⟩ := (mem_found_iff hl hd).1 hy
        cases he with
        | broken hg hk =>
          rcases kind_eq_broken_iff.1 hk with hp | ⟨-, file', hfile, hw⟩
          · obtain ⟨-, -, ⟨e, -, hw⟩ | ⟨l, d', -, -, a, -, hw⟩⟩ := plainKind_eq_broken_iff.1 hp
            · cases hw
            · cases hw
          · cases hw
            exact ⟨_, hfile⟩

theorem emits_of_found {r : Location} {d : Node} (h : fs.look .follow root = .ok (r, d))
    (hd : d.isDir = true) {names : List (List Name)}
    (hf : found fs followLinks guard (pathLimit + 1) [] s root = names.map .ok) :
    (∀ v up w, Visited fs followLinks guard s root v up →
      ¬ Emits fs followLinks guard root v up (.error w)) ∧
    ∀ ns, ns ∈ names ↔ ∃ v up, Visited fs followLinks guard s root v up ∧
      Emits fs followLinks guard root v up (.ok ns) := by
  constructor
  · intro v up w hv he
    have hw := (mem_found_iff h hd).2 ⟨v, up, hv, he⟩
    rw [hf] at hw
    simp at hw
  · intro ns
    rw [← mem_found_iff h hd, hf]
    simp

theorem length_child_lt (hok : ∀ v up w, Visited fs followLinks Guard.open () root v up →
      ¬ Emits fs followLinks Guard.open root v up (.error w))
    {v : Visit Unit} {up : List (Visit Unit)} {name : Name} {mode : Nat}
    (hv : Visited fs followLinks Guard.open () root v up)
    (hg : fs.tree.get? (name :: v.location) = some (.dir mode)) :
    (v.child root name).bytes.length < pathLimit := by
  refine Nat.lt_of_not_le fun hlong => ?_
  obtain ⟨-, -, -, -, h₀, -⟩ := isEntryName_iff.1 (FileTree.isEntryName_of_get? hg)
  have hl : fs.look .follow (v.child root name) = .error .nameTooLong :=
    FileSystem.look_of_too_long (Path.nul_notMem_join hv.reaches.1.1 h₀) hlong
  exact hok _ _ _ hv (.closed hg rfl rfl hl)

theorem exists_get?_of_found {r : Location} {d : Node} (h : fs.look .follow root = .ok (r, d))
    (hd : d.isDir = true) {ns : List Name}
    (hx : .ok ns ∈ found fs followLinks guard (pathLimit + 1) [] s root) :
    ns ≠ [] ∧ ∀ n ∈ ns, ∃ l d, fs.tree.get? (n :: l) = some d := by
  obtain ⟨v, up, hv, he⟩ := (mem_found_iff h hd).1 hx
  exact exists_get?_of_emits hv he

theorem ok_mem_found {r : Location} {d : Node} (h : fs.look .follow root = .ok (r, d))
    (hd : d.isDir = true) {ns : List Name}
    (hx : .ok ns ∈ found fs followLinks guard (pathLimit + 1) [] s root) :
    ns ≠ [] ∧ ∀ n ∈ ns, isEntryName n = true := by
  obtain ⟨hne, hget⟩ := exists_get?_of_found h hd hx
  refine ⟨hne, fun n hn => ?_⟩
  obtain ⟨l, d, hg⟩ := hget n hn
  exact FileTree.isEntryName_of_get? hg

theorem isEntryName_of_found {r : Location} {d : Node} (h : fs.look .follow root = .ok (r, d))
    (hd : d.isDir = true) {names : List (List Name)}
    (hf : found fs followLinks guard (pathLimit + 1) [] s root = names.map .ok) {ns : List Name}
    (hns : ns ∈ names) : ns ≠ [] ∧ ∀ n ∈ ns, isEntryName n = true := by
  have hx : .ok ns ∈ found fs followLinks guard (pathLimit + 1) [] s root := by
    rw [hf]
    simpa using hns
  exact ok_mem_found h hd hx

end ResourceManifest.Walk
