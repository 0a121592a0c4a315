import Mathlib.Data.List.Basic
import ResourceManifest.Proofs.Walk.Member

set_option autoImplicit false

namespace ResourceManifest.Walk

variable {σ : Type}

/-- Whether a guard that knows `s` in the directory `p` lets a walk come to the file that these
names lead to: it skips neither the file nor a directory on the way. -/
def passes (fs : FileSystem) (guard : Guard σ) (s : σ) (p : Path) : List Name → Bool
  | [] => true
  | n :: ns => !guard.skips s (p.join n) (!ns.isEmpty) &&
      passes fs guard (guard.enter fs s (p.join n)) (p.join n) ns

def letsBy (fs : FileSystem) (guard : Guard σ) (s : σ) (p : Path) :
    Except WalkFault (List Name) → Bool
  | .ok ns => passes fs guard s p ns
  | .error _ => true

variable {fs : FileSystem} {followLinks : Bool} {guard : Guard σ} {above : List Ancestor} {s : σ}
  {p : Path} {l : Location}

theorem filter_map_cons {xs : Finds} {name : Name} (hok : ∀ w, .error w ∉ xs)
    (hne : ∀ ns, .ok ns ∈ xs → ns ≠ []) :
    (xs.map fun x => x.map (name :: ·)).filter (letsBy fs guard s p) =
      if guard.skips s (p.join name) true then []
      else (xs.filter (letsBy fs guard (guard.enter fs s (p.join name)) (p.join name))).map
        fun x => x.map (name :: ·) := by
  have hby : ∀ x ∈ xs, letsBy fs guard s p (x.map (name :: ·)) =
      (!guard.skips s (p.join name) true &&
        letsBy fs guard (guard.enter fs s (p.join name)) (p.join name) x) := by
    intro x hx
    cases x with
    | error w => exact absurd hx (hok w)
    | ok ns =>
      cases ns with
      | nil => exact absurd rfl (hne _ hx)
      | cons m ms => rfl
  rw [List.filter_map]
  cases hs : guard.skips s (p.join name) true with
  | true =>
    have hnone : xs.filter (letsBy fs guard s p ∘ fun x => x.map (name :: ·)) = [] := by
      refine List.filter_eq_nil_iff.2 fun x hx => ?_
      simp [hby x hx, hs]
    rw [hnone]
    rfl
  | false =>
    have hsame : xs.filter (letsBy fs guard s p ∘ fun x => x.map (name :: ·)) =
        xs.filter (letsBy fs guard (guard.enter fs s (p.join name)) (p.join name)) := by
      refine List.filter_congr fun x hx => ?_
      simp [hby x hx, hs]
    rw [hsame]
    rfl

theorem atEntry_eq_filter {inside : σ → Path → Finds} {insideOpen : Unit → Path → Finds}
    {name : Name}
    (hin : (∀ w, .error w ∉ insideOpen () (p.join name)) → inside s (p.join name) =
      (insideOpen () (p.join name)).filter
        (letsBy fs guard (guard.enter fs s (p.join name)) (p.join name)))
    (hne : ∀ ns, .ok ns ∈ insideOpen () (p.join name) → ns ≠ [])
    (hends : guard.endless? fs (p.join name) = none)
    (hok : ∀ w, .error w ∉ atEntry fs followLinks Guard.open insideOpen above () p l name) :
    atEntry fs followLinks guard inside above s p l name =
      (atEntry fs followLinks Guard.open insideOpen above () p l name).filter
        (letsBy fs guard s p) := by
  cases hg : fs.tree.get? (name :: l) with
  | none => simp [atEntry, hg]
  | some n =>
    have hopen : kind fs guard followLinks above (p.join name) n =
        kind fs Guard.open followLinks above (p.join name) n :=
      (kind_eq_plainKind fun _ => hends).trans kind_open.symm
    cases hk : kind fs Guard.open followLinks above (p.join name) n with
    | broken f => exact (hok f ((mem_atEntry_iff hg).2 (.inl ⟨f, hk, rfl⟩))).elim
    | other => simp [atEntry, hg, hk, hopen]
    | regular =>
      have hnever : ∀ b, Guard.open.skips () (p.join name) b = false := fun _ => rfl
      simp only [atEntry, hg, hk, hopen, hnever, Bool.false_eq_true, if_false]
      cases hs : guard.skips s (p.join name) false <;> simp [letsBy, passes, hs]
    | directory =>
      have hok' : ∀ w, .error w ∉ insideOpen () (p.join name) := by
        intro w hw
        exact hok w ((mem_atEntry_iff hg).2 (.inr (.inl ⟨hk, rfl, _, hw, rfl⟩)))
      have hnever : ∀ b, Guard.open.skips () (p.join name) b = false := fun _ => rfl
      simp only [atEntry, hg, hk, hopen, hnever, Bool.false_eq_true, if_false]
      rw [filter_map_cons hok' hne, hin hok']

theorem found_eq_filter (levels : Nat) (hends : ∀ q, guard.endless? fs q = none)
    (hok : ∀ w, .error w ∉ found fs followLinks Guard.open levels above () p) :
    found fs followLinks guard levels above s p =
      (found fs followLinks Guard.open levels above () p).filter
        (letsBy fs guard (guard.enter fs s p) p) := by
  induction levels generalizing above s p with
  | zero => rfl
  | succ levels ih =>
    obtain ⟨l, d, h, hd⟩ := look_of_found hok
    rw [found_of_dir h hd] at hok ⊢
    rw [found_of_dir h hd, List.filter_flatMap]
    refine List.flatMap_congr fun name hm => ?_
    refine atEntry_eq_filter ih (fun ns => ok_mem_found_ne_nil) (hends _) fun w hw => ?_
    exact hok w (List.mem_flatMap.2 ⟨name, hm, hw⟩)

end ResourceManifest.Walk
