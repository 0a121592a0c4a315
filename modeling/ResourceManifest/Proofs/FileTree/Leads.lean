import ResourceManifest.FileSystem
import ResourceManifest.Proofs.FileTree.Entries
import ResourceManifest.Proofs.Path.Join

/-!
Where steps lead when every link on the way is followed, said by rules without any limit. A walk
along the steps is the same with a limit on the number of links, so a place is found exactly where
the rules lead within the limits of the system.
-/

set_option autoImplicit false

namespace ResourceManifest

/-- The steps lead from one location to another, over this many links. -/
inductive Leads (t : FileTree) : Nat → Location → List Bytes → Location → Prop where
  | done {here : Location} : Leads t 0 here [] here
  | stay {k : Nat} {here l : Location} {step : Bytes} {rest : List Bytes} :
      t.isDir here = true → step = [] ∨ step = [Path.dot] → Leads t k here rest l →
      Leads t k here (step :: rest) l
  | up {k : Nat} {here l : Location} {rest : List Bytes} :
      t.isDir here = true → Leads t k here.tail rest l →
      Leads t k here ([Path.dot, Path.dot] :: rest) l
  | entry {k : Nat} {here l : Location} {step : Bytes} {rest : List Bytes} {n : Node} :
      t.get? (step :: here) = some n → n.isLink = false → Leads t k (step :: here) rest l →
      Leads t k here (step :: rest) l
  | link {k : Nat} {here l : Location} {step : Bytes} {rest : List Bytes} {target : Path} :
      t.get? (step :: here) = some (.link target) →
      Leads t k (if target.isAbsolute then [] else here) (target.steps ++ rest) l →
      Leads t (k + 1) here (step :: rest) l

namespace FileTree

variable {t : FileTree}

theorem isDots_of_isEntryName {n : Name} (h : isEntryName n = true) :
    n ≠ [] ∧ n ≠ [Path.dot] ∧ n ≠ [Path.dot, Path.dot] ∧ ¬ nameLimit < n.length := by
  obtain ⟨h₁, h₂, h₃, -, -, h₄⟩ := isEntryName_iff.1 h
  refine ⟨h₁, h₂, h₃, ?_⟩
  unfold nameLimit
  omega

theorem walk_nil (t : FileTree) {ending : Ending} (he : ending ≠ .create) (links : Nat)
    (here : Location) : t.walk ending links here [] = .ok (here, links) := by
  cases links <;> simp [walk, walkSteps, he]

theorem walk_cons (t : FileTree) {ending : Ending} (he : ending ≠ .create) (links : Nat)
    (here : Location) (step : Bytes) (rest : List Bytes) :
    t.walk ending links here (step :: rest) =
      if !t.isDir here then .error .notDirectory
      else if step = [] ∨ step = [Path.dot] then t.walk ending links here rest
      else if step = [Path.dot, Path.dot] then t.walk ending links here.tail rest
      else if nameLimit < step.length then .error .nameTooLong
      else match t.get? (step :: here), links with
        | none, _ => .error .notFound
        | some (.link target), links =>
          if rest = [] ∧ ending = .keep then .ok (step :: here, links)
          else match links with
            | 0 => .error .tooManyLinks
            | links + 1 =>
              t.walk ending links (if target.isAbsolute then [] else here) (target.steps ++ rest)
        | some _, _ => t.walk ending links (step :: here) rest := by
  by_cases hr : rest = []
  · subst hr
    cases links <;> simp only [walk, walkSteps] <;> simp [he] <;>
      cases t.get? (step :: here) with
      | none => rfl
      | some n => cases n <;> simp
  · cases links <;> simp only [walk, walkSteps] <;> simp [hr, he] <;>
      cases t.get? (step :: here) with
      | none => rfl
      | some n => cases n <;> simp

theorem exists_leads_of_walk {links left : Nat} {here l : Location} {steps : List Bytes}
    (h : t.walk .follow links here steps = .ok (l, left)) :
    ∃ k, Leads t k here steps l ∧ left + k = links := by
  induction links using Nat.strongRecOn generalizing here steps with
  | ind links ih =>
    induction steps generalizing here with
    | nil =>
      rw [walk_nil t (by simp)] at h
      cases h
      exact ⟨0, .done, rfl⟩
    | cons step rest ihs =>
      rw [walk_cons t (by simp)] at h
      split at h
      · simp at h
      · next hd =>
        have hd : t.isDir here = true := by simpa using hd
        split at h
        · next hs =>
          obtain ⟨k, hl, hk⟩ := ihs h
          exact ⟨k, .stay hd hs hl, hk⟩
        · split at h
          · next hs =>
            obtain ⟨k, hl, hk⟩ := ihs h
            exact ⟨k, hs ▸ .up hd hl, hk⟩
          · split at h
            · simp at h
            · cases hg : t.get? (step :: here) with
              | none => simp [hg] at h
              | some n =>
                cases n with
                | link target =>
                  cases links with
                  | zero => simp [hg] at h
                  | succ links =>
                    simp only [hg, reduceCtorEq, and_false, if_false] at h
                    obtain ⟨k, hl, hk⟩ := ih links (by omega) h
                    exact ⟨k + 1, .link hg hl, by omega⟩
                | _ =>
                  simp only [hg] at h
                  obtain ⟨k, hl, hk⟩ := ihs h
                  exact ⟨k, .entry hg rfl hl, hk⟩

theorem walk_of_leads {ending : Ending} (he : ending ≠ .create) (left : Nat) {k : Nat}
    {here l : Location} {steps : List Bytes} (h : Leads t k here steps l) :
    t.walk ending (left + k) here steps = .ok (l, left) ∨ ending = .keep ∧
      ∃ l' left' target, t.walk ending (left + k) here steps = .ok (l', left') ∧
        t.get? l' = some (.link target) := by
  induction h with
  | done => exact .inl (t.walk_nil he _ _)
  | stay hd hs _ ih => rwa [walk_cons t he, hd, if_neg (by simp), if_pos hs]
  | up hd _ ih => rwa [walk_cons t he, hd, if_neg (by simp), if_neg (by simp), if_pos rfl]
  | @entry k here l step rest n hg hn _ ih =>
    obtain ⟨h₁, h₂, h₃, h₄⟩ := isDots_of_isEntryName (isEntryName_of_get? hg)
    rw [walk_cons t he, isDir_of_get?_cons hg, if_neg (by simp), if_neg (by simp [h₁, h₂]),
      if_neg h₃, if_neg h₄, hg]
    cases n with
    | link target => simp [Node.isLink] at hn
    | _ => exact ih
  | @link k here l step rest target hg _ ih =>
    obtain ⟨h₁, h₂, h₃, h₄⟩ := isDots_of_isEntryName (isEntryName_of_get? hg)
    rw [walk_cons t he, isDir_of_get?_cons hg, if_neg (by simp), if_neg (by simp [h₁, h₂]),
      if_neg h₃, if_neg h₄, hg]
    by_cases hk : rest = [] ∧ ending = .keep
    · refine .inr ⟨hk.2, step :: here, left + (k + 1), target, ?_, hg⟩
      simp only [hk, and_self, if_true]
    · simp only [if_neg hk]
      exact ih

theorem walk_follow_of_leads (left : Nat) {k : Nat} {here l : Location} {steps : List Bytes}
    (h : Leads t k here steps l) : t.walk .follow (left + k) here steps = .ok (l, left) :=
  (walk_of_leads (by simp) left h).resolve_right (by simp)

theorem walk_follow_eq_ok_iff {links left : Nat} {here l : Location} {steps : List Bytes} :
    t.walk .follow links here steps = .ok (l, left) ↔
      ∃ k, Leads t k here steps l ∧ left + k = links := by
  constructor
  · exact exists_leads_of_walk
  · intro hx
    obtain ⟨k, h, rfl⟩ := hx
    exact walk_follow_of_leads left h

end FileTree

namespace Leads

variable {t : FileTree}

theorem deterministic {k k' : Nat} {here l l' : Location} {steps : List Bytes}
    (h : Leads t k here steps l) (h' : Leads t k' here steps l') : l = l' ∧ k = k' := by
  have hw := FileTree.walk_follow_of_leads k' h
  have hw' := FileTree.walk_follow_of_leads k h'
  rw [Nat.add_comm k k', hw] at hw'
  simp only [Except.ok.injEq, Prod.mk.injEq] at hw'
  exact ⟨hw'.1, hw'.2.symm⟩

theorem append {i j : Nat} {here m l : Location} {as bs : List Bytes}
    (h : Leads t i here as m) (h' : Leads t j m bs l) : Leads t (i + j) here (as ++ bs) l := by
  induction h with
  | done => simpa using h'
  | stay hd hs _ ih => exact .stay hd hs (ih h')
  | up hd _ ih => exact .up hd (ih h')
  | entry hg hn _ ih => exact .entry hg hn (ih h')
  | @link k _ _ _ _ _ hg _ ih =>
    have hl := ih h'
    rw [List.append_assoc] at hl
    rw [Nat.add_right_comm k 1 j]
    exact .link hg hl

theorem split {k : Nat} {here l : Location} {steps as bs : List Bytes}
    (h : Leads t k here steps l) (hs : steps = as ++ bs) :
    ∃ m i j, Leads t i here as m ∧ Leads t j m bs l ∧ k = i + j := by
  induction h generalizing as with
  | @done here =>
    obtain ⟨rfl, rfl⟩ := List.nil_eq_append_iff.1 hs
    exact ⟨here, 0, 0, .done, .done, rfl⟩
  | @stay k here l step rest hd hst hl ih =>
    cases as with
    | nil =>
      obtain rfl : step :: rest = bs := hs
      exact ⟨here, 0, k, .done, .stay hd hst hl, by omega⟩
    | cons a as =>
      obtain ⟨rfl, hr⟩ := List.cons.inj hs
      obtain ⟨m, i, j, hi, hj, hk⟩ := ih hr
      exact ⟨m, i, j, .stay hd hst hi, hj, hk⟩
  | @up k here l rest hd hl ih =>
    cases as with
    | nil =>
      obtain rfl : _ :: rest = bs := hs
      exact ⟨here, 0, k, .done, .up hd hl, by omega⟩
    | cons a as =>
      obtain ⟨rfl, hr⟩ := List.cons.inj hs
      obtain ⟨m, i, j, hi, hj, hk⟩ := ih hr
      exact ⟨m, i, j, .up hd hi, hj, hk⟩
  | @entry k here l step rest n hg hn hl ih =>
    cases as with
    | nil =>
      obtain rfl : step :: rest = bs := hs
      exact ⟨here, 0, k, .done, .entry hg hn hl, by omega⟩
    | cons a as =>
      obtain ⟨rfl, hr⟩ := List.cons.inj hs
      obtain ⟨m, i, j, hi, hj, hk⟩ := ih hr
      exact ⟨m, i, j, .entry hg hn hi, hj, hk⟩
  | @link k here l step rest target hg hl ih =>
    cases as with
    | nil =>
      obtain rfl : step :: rest = bs := hs
      exact ⟨here, 0, k + 1, .done, .link hg hl, by omega⟩
    | cons a as =>
      obtain ⟨rfl, rfl⟩ := List.cons.inj hs
      obtain ⟨m, i, j, hi, hj, hk⟩ := ih (List.append_assoc _ _ _).symm
      exact ⟨m, i + 1, j, .link hg hi, hj, by omega⟩

theorem of_slash_end {k : Nat} {here l : Location} {steps : List Bytes}
    (h : Leads t k here (steps ++ [[]]) l) : Leads t k here steps l := by
  obtain ⟨m, i, j, hi, hj, hk⟩ := h.split rfl
  cases hj with
  | stay _ _ hd =>
    cases hd
    rwa [hk, Nat.add_zero]
  | entry hg _ _ => exact ((isEntryName_iff.1 (FileTree.isEntryName_of_get? hg)).1 rfl).elim
  | link hg _ => exact ((isEntryName_iff.1 (FileTree.isEntryName_of_get? hg)).1 rfl).elim

theorem of_get? {l : Location} {n : Name} {d : Node} (h : t.get? (n :: l) = some d)
    (hd : d.isLink = false) : Leads t 0 l [n] (n :: l) := .entry h hd .done

end Leads

namespace Leads

variable {t : FileTree} {k : Nat} {here m : Location} {steps : List Bytes} {n : Node}

theorem isLink_of_isDir (hm : t.isDir m = true) (hn : t.get? m = some n) : n.isLink = false := by
  rw [FileTree.isDir_of_get? hn] at hm
  cases n with
  | link target => cases hm
  | _ => rfl

theorem isLink (h : Leads t k here steps m) (hne : steps ≠ []) (hn : t.get? m = some n) :
    n.isLink = false := by
  induction h with
  | done => exact absurd rfl hne
  | @stay k here m step rest hd _ hl ih =>
    by_cases hr : rest = []
    · subst hr
      cases hl
      exact isLink_of_isDir hd hn
    · exact ih hr hn
  | @up k here m rest hd hl ih =>
    by_cases hr : rest = []
    · subst hr
      cases hl
      exact isLink_of_isDir (FileTree.isDir_tail hd) hn
    · exact ih hr hn
  | @entry k here m step rest d hg hd hl ih =>
    by_cases hr : rest = []
    · subst hr
      cases hl
      rwa [← Option.some.inj (hg.symm.trans hn)]
    · exact ih hr hn
  | @link k here m step rest target hg hl ih =>
    by_cases hr : target.steps ++ rest = []
    · rw [hr] at hl
      cases hl
      refine isLink_of_isDir ?_ hn
      split
      · exact FileTree.isDir_nil t
      · exact FileTree.isDir_of_get?_cons hg
    · exact ih hr hn

end Leads

end ResourceManifest
