import ResourceManifest.Walk
import ResourceManifest.Proofs.FileSystem.Reaches
import ResourceManifest.Proofs.FileTree.Order

set_option autoImplicit false

namespace ResourceManifest.Walk

variable {σ : Type}

/-- What a directory is found to hold: faults, and the names that lead to files. -/
abbrev Finds := List (Except WalkFault (List Name))

/-- What is found at the entry `name` of the directory `p`, where `inside` walks directories. -/
def atEntry (fs : FileSystem) (followLinks : Bool) (guard : Guard σ) (inside : σ → Path → Finds)
    (above : List Ancestor) (s : σ) (p : Path) (l : Location) (name : Name) : Finds :=
  match fs.tree.get? (name :: l) with
  | none => []
  | some n =>
    match kind fs guard followLinks above (p.join name) n with
    | .broken f => [.error f]
    | .directory =>
      if guard.skips s (p.join name) true then []
      else (inside s (p.join name)).map fun x => x.map (name :: ·)
    | .regular => if guard.skips s (p.join name) false then [] else [.ok [name]]
    | .other => []

def found (fs : FileSystem) (followLinks : Bool) (guard : Guard σ) :
    Nat → List Ancestor → σ → Path → Finds
  | 0, _, _, _ => []
  | levels + 1, above, s, p =>
    match fs.look .follow p with
    | .error f => [.error (.file p f)]
    | .ok (l, n) =>
      if !n.isDir then [.error (.file p .notDirectory)]
      else (fs.tree.names l).flatMap
        (atEntry fs followLinks guard (found fs followLinks guard levels (⟨p, l⟩ :: above))
          (⟨p, l⟩ :: above) (guard.enter fs s p) p l)

variable {fs : FileSystem} {followLinks : Bool} {guard : Guard σ} {levels : Nat}
  {above : List Ancestor} {s : σ} {p : Path} {l : Location}

theorem below_eq_map_found (fs : FileSystem) (followLinks : Bool) (guard : Guard σ) (levels : Nat)
    (above : List Ancestor) (s : σ) (p : Path) : below fs followLinks guard levels above s p =
      (found fs followLinks guard levels above s p).map fun x => x.map p.joinAll := by
  induction levels generalizing above s p with
  | zero => rfl
  | succ levels ih =>
    unfold below found
    cases fs.look .follow p with
    | error f => rfl
    | ok r =>
      obtain ⟨l, n⟩ := r
      by_cases hn : n.isDir = true
      · simp only [hn, Bool.not_true, Bool.false_eq_true, if_false, List.map_flatMap]
        congr 1
        funext name
        unfold atEntry
        cases fs.tree.get? (name :: l) with
        | none => rfl
        | some n =>
          simp only
          cases kind fs guard followLinks (⟨p, l⟩ :: above) (p.join name) n with
          | broken f => rfl
          | directory =>
            simp only
            split
            · rfl
            · rw [ih, List.map_map]
              congr 1
              funext x
              cases x <;> rfl
          | regular =>
            simp only
            split <;> rfl
          | other => rfl
      · simp only [Bool.not_eq_true] at hn
        simp [hn, Except.map]

theorem found_of_dir {d : Node} (h : fs.look .follow p = .ok (l, d)) (hd : d.isDir = true) :
    found fs followLinks guard (levels + 1) above s p = (fs.tree.names l).flatMap
      (atEntry fs followLinks guard (found fs followLinks guard levels (⟨p, l⟩ :: above))
        (⟨p, l⟩ :: above) (guard.enter fs s p) p l) := by
  simp [found, h, hd]

theorem found_of_error {f : FileFault} (h : fs.look .follow p = .error f) :
    found fs followLinks guard (levels + 1) above s p = [.error (.file p f)] := by
  simp [found, h]

theorem look_of_found (hok : ∀ w, .error w ∉ found fs followLinks guard (levels + 1) above s p) :
    ∃ l d, fs.look .follow p = .ok (l, d) ∧ d.isDir = true := by
  cases hl : fs.look .follow p with
  | error f =>
    rw [found_of_error hl] at hok
    exact absurd List.mem_cons_self (hok _)
  | ok x =>
    obtain ⟨l, d⟩ := x
    cases hd : d.isDir with
    | true => exact ⟨l, d, rfl, hd⟩
    | false =>
      exfalso
      refine hok (.file p .notDirectory) ?_
      simp [found, hl, hd]

theorem files_of_dir {d : Node} (h : fs.look .follow p = .ok (l, d)) (hd : d.isDir = true) :
    files fs followLinks guard s p =
      (found fs followLinks guard (pathLimit + 1) [] s p).map fun x => x.map p.joinAll := by
  obtain ⟨hr, hg⟩ := FileSystem.look_follow_eq_ok_iff.1 h
  obtain ⟨r, hk⟩ := hr.look_keep hg
  have hs := FileSystem.stat_eq_ok_iff.2 ⟨l, h⟩
  unfold files
  rw [hk, hs]
  simp only [hd, if_true]
  exact below_eq_map_found fs followLinks guard _ _ _ _

theorem atEntry_congr {σ' : Type} {guard' : Guard σ'} {s' : σ'} {inside : σ → Path → Finds}
    {inside' : σ' → Path → Finds} {above' : List Ancestor} {name : Name} {n : Node}
    (hg : fs.tree.get? (name :: l) = some n)
    (hk : kind fs guard' followLinks above' (p.join name) n =
      kind fs guard followLinks above (p.join name) n)
    (hs : ∀ isDir, guard'.skips s' (p.join name) isDir = guard.skips s (p.join name) isDir)
    (hin : kind fs guard followLinks above (p.join name) n = .directory →
      guard.skips s (p.join name) true = false →
      inside' s' (p.join name) = inside s (p.join name)) :
    atEntry fs followLinks guard' inside' above' s' p l name =
      atEntry fs followLinks guard inside above s p l name := by
  unfold atEntry
  simp only [hg, hk, hs]
  cases hkind : kind fs guard followLinks above (p.join name) n with
  | directory =>
    cases hskip : guard.skips s (p.join name) true with
    | true => rfl
    | false => simp only [hin hkind hskip]
  | _ => rfl

theorem mem_atEntry_iff {inside : σ → Path → Finds} {name : Name} {n : Node}
    {x : Except WalkFault (List Name)} (hg : fs.tree.get? (name :: l) = some n) :
    x ∈ atEntry fs followLinks guard inside above s p l name ↔
      (∃ f, kind fs guard followLinks above (p.join name) n = .broken f ∧ x = .error f) ∨
      (kind fs guard followLinks above (p.join name) n = .directory ∧
        guard.skips s (p.join name) true = false ∧
        ∃ y ∈ inside s (p.join name), y.map (name :: ·) = x) ∨
      (kind fs guard followLinks above (p.join name) n = .regular ∧
        guard.skips s (p.join name) false = false ∧ x = .ok [name]) := by
  simp only [atEntry, hg]
  cases hk : kind fs guard followLinks above (p.join name) n with
  | broken f => simp
  | directory => cases hs : guard.skips s (p.join name) true <;> simp
  | regular => cases hs : guard.skips s (p.join name) false <;> simp
  | other => simp

theorem exists_get?_of_mem_atEntry {inside : σ → Path → Finds} {name : Name}
    {x : Except WalkFault (List Name)}
    (h : x ∈ atEntry fs followLinks guard inside above s p l name) :
    ∃ n, fs.tree.get? (name :: l) = some n := by
  unfold atEntry at h
  cases hg : fs.tree.get? (name :: l) with
  | none => simp [hg] at h
  | some n => exact ⟨n, rfl⟩

theorem eq_cons_of_ok_mem_atEntry {inside : σ → Path → Finds} {name : Name} {ns : List Name}
    (h : .ok ns ∈ atEntry fs followLinks guard inside above s p l name) :
    ∃ ms, ns = name :: ms := by
  obtain ⟨n, hg⟩ := exists_get?_of_mem_atEntry h
  rcases (mem_atEntry_iff hg).1 h with ⟨f, -, hx⟩ | ⟨-, -, y, -, hx⟩ | ⟨-, -, hx⟩
  · simp at hx
  · cases y with
    | error f => simp [Except.map] at hx
    | ok ms => exact ⟨ms, by simpa [Except.map] using hx.symm⟩
  · exact ⟨[], by simpa using hx⟩

theorem ok_mem_found_ne_nil {ns : List Name}
    (h : .ok ns ∈ found fs followLinks guard levels above s p) : ns ≠ [] := by
  cases levels with
  | zero => simp [found] at h
  | succ levels =>
    unfold found at h
    split at h
    · simp at h
    · split at h
      · simp at h
      · obtain ⟨name, -, hn⟩ := List.mem_flatMap.1 h
        obtain ⟨ms, rfl⟩ := eq_cons_of_ok_mem_atEntry hn
        simp

def Distinct (xs : Finds) : Prop := xs.Pairwise fun x y => ∀ ns, x = .ok ns → y ≠ .ok ns

theorem Distinct.nodup {names : List (List Name)}
    (h : Distinct (names.map .ok)) : names.Nodup := by
  refine (List.pairwise_map.1 h).imp ?_
  intro ms ns hmn hms
  exact hmn ms rfl (by rw [hms])

/-- Finds in which each file comes after those before it, their names compared one by one. -/
def Ascending (xs : Finds) : Prop :=
  xs.Pairwise fun x y => ∀ ms ns, x = .ok ms → y = .ok ns → ms < ns

theorem Ascending.distinct {xs : Finds} (h : Ascending xs) : Distinct xs :=
  List.Pairwise.imp (fun hxy ns hx hy => List.lt_irrefl _ (hxy ns ns hx hy)) h

theorem Ascending.map_cons {xs : Finds} (h : Ascending xs) (name : Name) :
    Ascending (xs.map fun x => x.map (name :: ·)) := by
  refine List.pairwise_map.2 (List.Pairwise.imp ?_ h)
  intro x y hxy ms ns hx hy
  cases x with
  | error f => simp [Except.map] at hx
  | ok ms' =>
    cases y with
    | error f => simp [Except.map] at hy
    | ok ns' =>
      simp only [Except.map, Except.ok.injEq] at hx hy
      rw [← hx, ← hy]
      exact List.cons_lt_cons_iff.2 (.inr ⟨rfl, hxy ms' ns' rfl rfl⟩)

theorem atEntry_ascending {inside : σ → Path → Finds} (name : Name)
    (h : Ascending (inside s (p.join name))) :
    Ascending (atEntry fs followLinks guard inside above s p l name) := by
  unfold atEntry
  split
  · exact .nil
  · split
    · exact List.pairwise_singleton _ _
    · split
      · exact .nil
      · exact h.map_cons name
    · split
      · exact .nil
      · exact List.pairwise_singleton _ _
    · exact .nil

/-- A directory's files stand where its name does, so that the order of the names in each directory
is the order of all files. -/
theorem found_ascending (fs : FileSystem) (followLinks : Bool) (guard : Guard σ) (levels : Nat)
    (above : List Ancestor) (s : σ) (p : Path) :
    Ascending (found fs followLinks guard levels above s p) := by
  induction levels generalizing above s p with
  | zero => exact .nil
  | succ levels ih =>
    unfold found
    split
    · exact List.pairwise_singleton _ _
    · split
      · exact List.pairwise_singleton _ _
      · refine List.pairwise_flatMap.2 ⟨fun name _ => atEntry_ascending name (ih _ _ _), ?_⟩
        refine (fs.tree.names_strictly_pairwise _).imp ?_
        intro m n hmn x hx y hy ms ns hxm hyn
        subst hxm hyn
        obtain ⟨ms', rfl⟩ := eq_cons_of_ok_mem_atEntry hx
        obtain ⟨ns', rfl⟩ := eq_cons_of_ok_mem_atEntry hy
        exact List.cons_lt_cons_iff.2 (.inl hmn)

theorem found_distinct (fs : FileSystem) (followLinks : Bool) (guard : Guard σ) (levels : Nat)
    (above : List Ancestor) (s : σ) (p : Path) :
    Distinct (found fs followLinks guard levels above s p) :=
  (found_ascending fs followLinks guard levels above s p).distinct

end ResourceManifest.Walk
