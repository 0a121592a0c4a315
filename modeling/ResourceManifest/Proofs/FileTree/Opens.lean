import ResourceManifest.Proofs.FileTree.Leads
import ResourceManifest.Proofs.FileTree.Update

/-!
Where steps lead when a file is opened for writing, said by rules without any limit. At their end
stands a file, or there is a place for one. A tree that differs nowhere else leads there as well.
-/

set_option autoImplicit false

namespace ResourceManifest

namespace Leads

variable {t t' : FileTree} {k : Nat} {here l : Location} {step : Bytes} {rest as : List Bytes}

theorem isDir (h : Leads t k here (step :: rest) l) : t.isDir here = true := by
  cases h with
  | stay hd _ _ => exact hd
  | up hd _ => exact hd
  | entry hg _ _ => exact FileTree.isDir_of_get?_cons hg
  | link hg _ => exact FileTree.isDir_of_get?_cons hg

theorem isDir_of_slash_end (h : Leads t k here (as ++ [[]]) l) : t.isDir l = true := by
  obtain ⟨m, i, j, -, hj, -⟩ := h.split rfl
  have hm := hj.isDir
  cases hj with
  | stay _ _ hd =>
    cases hd
    exact hm
  | entry hg _ _ => exact ((isEntryName_iff.1 (FileTree.isEntryName_of_get? hg)).1 rfl).elim
  | link hg _ => exact ((isEntryName_iff.1 (FileTree.isEntryName_of_get? hg)).1 rfl).elim

theorem slash_end (h : Leads t k here as l) (hl : t.isDir l = true) :
    Leads t k here (as ++ [[]]) l := h.append (.stay hl (.inl rfl) .done)

theorem mono (hsub : ∀ l n, t.get? l = some n → t'.get? l = some n)
    (h : Leads t k here rest l) : Leads t' k here rest l := by
  have hdir : ∀ {l}, t.isDir l = true → t'.isDir l = true := by
    intro l hl
    obtain ⟨mode, hm⟩ := FileTree.isDir_iff.1 hl
    exact FileTree.isDir_iff.2 ⟨mode, hsub _ _ hm⟩
  induction h with
  | done => exact .done
  | stay hd hs _ ih => exact .stay (hdir hd) hs ih
  | up hd _ ih => exact .up (hdir hd) ih
  | entry hg hn _ ih => exact .entry (hsub _ _ hg) hn ih
  | link hg _ ih => exact .link (hsub _ _ hg) ih

theorem of_agree {x : Location} (hx : ∀ n, t.get? x = some n → n.isLink = false ∧ n.isDir = false)
    (hsame : ∀ l', l' ≠ x → t'.get? l' = t.get? l') (h : Leads t k here rest l) (hne : l ≠ x) :
    Leads t' k here rest l := by
  have hdir : ∀ {d}, t.isDir d = true → d ≠ x ∧ t'.isDir d = true := by
    intro d hd
    have hdx : d ≠ x := by
      rintro rfl
      obtain ⟨mode, hm⟩ := FileTree.isDir_iff.1 hd
      cases (hx _ hm).2
    refine ⟨hdx, ?_⟩
    rw [FileTree.isDir, hsame d hdx]
    exact hd
  induction h with
  | done => exact .done
  | stay hd hs _ ih => exact .stay (hdir hd).2 hs (ih hne)
  | up hd _ ih => exact .up (hdir hd).2 (ih hne)
  | @entry k here l step rest n hg hn hl ih =>
    -- Either the way ends here, or it goes on and here is a directory.
    have hsx : step :: here ≠ x := by
      cases rest with
      | nil =>
        cases hl
        exact hne
      | cons a rest => exact (hdir hl.isDir).1
    exact .entry ((hsame _ hsx).trans hg) hn (ih hne)
  | link hg _ ih =>
    refine .link ((hsame _ ?_).trans hg) (ih hne)
    rintro rfl
    cases (hx _ hg).1

end Leads

/-- The steps lead from one location, over this many links, to a file or to where one may be
made. -/
inductive Opens (t : FileTree) : Nat → Location → List Bytes → Location → Prop where
  | new {here : Location} {name : Name} : t.isDir here = true → isEntryName name = true →
      t.get? (name :: here) = none → Opens t 0 here [name] (name :: here)
  | old {here : Location} {name : Name} {n : Node} : t.get? (name :: here) = some n →
      n.isLink = false → n.isDir = false → Opens t 0 here [name] (name :: here)
  | stay {k : Nat} {here l : Location} {step : Bytes} {rest : List Bytes} :
      t.isDir here = true → step = [] ∨ step = [Path.dot] → Opens t k here rest l →
      Opens t k here (step :: rest) l
  | up {k : Nat} {here l : Location} {rest : List Bytes} :
      t.isDir here = true → Opens t k here.tail rest l →
      Opens t k here ([Path.dot, Path.dot] :: rest) l
  | entry {k : Nat} {here l : Location} {step : Bytes} {rest : List Bytes} {n : Node} :
      t.get? (step :: here) = some n → n.isLink = false → Opens t k (step :: here) rest l →
      Opens t k here (step :: rest) l
  | link {k : Nat} {here l : Location} {step : Bytes} {rest : List Bytes} {target : Path} :
      t.get? (step :: here) = some (.link target) →
      Opens t k (if target.isAbsolute then [] else here) (target.steps ++ rest) l →
      Opens t (k + 1) here (step :: rest) l

namespace Opens

variable {t t' : FileTree} {k : Nat} {here l : Location} {steps : List Bytes}

theorem ne_nil (h : Opens t k here steps l) : steps ≠ [] := by
  cases h <;> simp

theorem isDir (h : Opens t k here steps l) : t.isDir here = true := by
  cases h with
  | new hd _ _ => exact hd
  | old hg _ _ => exact FileTree.isDir_of_get?_cons hg
  | stay hd _ _ => exact hd
  | up hd _ => exact hd
  | entry hg _ _ => exact FileTree.isDir_of_get?_cons hg
  | link hg _ => exact FileTree.isDir_of_get?_cons hg

theorem node (h : Opens t k here steps l) :
    ∀ n, t.get? l = some n → n.isLink = false ∧ n.isDir = false := by
  induction h with
  | new _ _ hg =>
    intro n hn
    rw [hg] at hn
    cases hn
  | old hg hlink hdir =>
    intro n hn
    obtain rfl := Option.some.inj (hg.symm.trans hn)
    exact ⟨hlink, hdir⟩
  | stay _ _ _ ih => exact ih
  | up _ _ ih => exact ih
  | entry _ _ _ ih => exact ih
  | link _ _ ih => exact ih

theorem isPlace (h : Opens t k here steps l) : t.IsPlace l := by
  induction h with
  | new hd hn hg => exact FileTree.isPlace_cons hd hn (by rw [FileTree.isDir, hg]; rfl)
  | old hg _ hdir =>
    exact FileTree.isPlace_cons (FileTree.isDir_of_get?_cons hg) (FileTree.isEntryName_of_get? hg)
      ((FileTree.isDir_of_get? hg).trans hdir)
  | stay _ _ _ ih => exact ih
  | up _ _ ih => exact ih
  | entry _ _ _ ih => exact ih
  | link _ _ ih => exact ih

theorem leads (h : Opens t k here steps l) (hsame : ∀ l', l' ≠ l → t'.get? l' = t.get? l')
    {n : Node} (hn : t'.get? l = some n) (hlink : n.isLink = false) :
    Leads t' k here steps l := by
  have hdir : ∀ {d}, t.isDir d = true → d ≠ l → t'.isDir d = true := by
    intro d hd hne
    rw [FileTree.isDir, hsame d hne]
    exact hd
  induction h with
  | new _ _ _ => exact .entry hn hlink .done
  | old _ _ _ => exact .entry hn hlink .done
  | stay hd hs hl ih =>
    refine .stay (hdir hd fun he => ?_) hs (ih hsame hn hdir)
    rw [he, hl.isPlace.free] at hd
    cases hd
  | up hd hl ih =>
    refine .up (hdir hd fun he => ?_) (ih hsame hn hdir)
    rw [he, hl.isPlace.free] at hd
    cases hd
  | entry hg hnl hl ih =>
    refine .entry ((hsame _ fun he => ?_).trans hg) hnl (ih hsame hn hdir)
    have hd := hl.isDir
    rw [he, hl.isPlace.free] at hd
    cases hd
  | link hg hl ih =>
    refine .link ((hsame _ fun he => ?_).trans hg) (ih hsame hn hdir)
    rw [he] at hg
    have hnode := (hl.node _ hg).1
    simp [Node.isLink] at hnode

theorem of_singleton {step : Bytes} (h : Opens t k here [step] l) : isEntryName step = true ∧
    (l = step :: here ∨ ∃ target, t.get? (step :: here) = some (.link target)) := by
  cases h with
  | new _ hn _ => exact ⟨hn, .inl rfl⟩
  | old hg _ _ => exact ⟨FileTree.isEntryName_of_get? hg, .inl rfl⟩
  | stay _ _ h => exact absurd rfl h.ne_nil
  | up _ h => exact absurd rfl h.ne_nil
  | entry _ _ h => exact absurd rfl h.ne_nil
  | link hg _ => exact ⟨FileTree.isEntryName_of_get? hg, .inr ⟨_, hg⟩⟩

theorem append {i j : Nat} {m : Location} {as bs : List Bytes} (h : Leads t i here as m)
    (h' : Opens t j m bs l) : Opens t (i + j) here (as ++ bs) l := by
  induction h with
  | done => simpa using h'
  | stay hd hs _ ih => exact .stay hd hs (ih h')
  | up hd _ ih => exact .up hd (ih h')
  | entry hg hn _ ih => exact .entry hg hn (ih h')
  | @link k _ _ _ _ _ hg _ ih =>
    have hl := ih h'
    rw [List.append_assoc] at hl
    rw [Nat.add_right_comm k 1 j]
    exact .link hg hl

theorem no_steps {bs : List Bytes} (h : Opens t k here steps l) (hs : steps = bs) :
    ∃ m i j, Leads t i here [] m ∧ Opens t j m bs l ∧ k = i + j :=
  ⟨here, 0, k, .done, hs ▸ h, (Nat.zero_add k).symm⟩

theorem split {as bs : List Bytes} (h : Opens t k here steps l) (hs : steps = as ++ bs)
    (hbs : bs ≠ []) :
    ∃ m i j, Leads t i here as m ∧ Opens t j m bs l ∧ k = i + j := by
  induction h generalizing as with
  | new hd hn hg =>
    cases as with
    | nil => exact (Opens.new hd hn hg).no_steps hs
    | cons a as => simp [hbs] at hs
  | old hg hlink hdir =>
    cases as with
    | nil => exact (Opens.old hg hlink hdir).no_steps hs
    | cons a as => simp [hbs] at hs
  | stay hd hst hl ih =>
    cases as with
    | nil => exact (Opens.stay hd hst hl).no_steps hs
    | cons a as =>
      obtain ⟨rfl, hr⟩ := List.cons.inj hs
      obtain ⟨m, i, j, hi, hj, hk⟩ := ih hr
      exact ⟨m, i, j, .stay hd hst hi, hj, hk⟩
  | up hd hl ih =>
    cases as with
    | nil => exact (Opens.up hd hl).no_steps hs
    | cons a as =>
      obtain ⟨rfl, hr⟩ := List.cons.inj hs
      obtain ⟨m, i, j, hi, hj, hk⟩ := ih hr
      exact ⟨m, i, j, .up hd hi, hj, hk⟩
  | entry hg hn hl ih =>
    cases as with
    | nil => exact (Opens.entry hg hn hl).no_steps hs
    | cons a as =>
      obtain ⟨rfl, hr⟩ := List.cons.inj hs
      obtain ⟨m, i, j, hi, hj, hk⟩ := ih hr
      exact ⟨m, i, j, .entry hg hn hi, hj, hk⟩
  | link hg hl ih =>
    cases as with
    | nil => exact (Opens.link hg hl).no_steps hs
    | cons a as =>
      obtain ⟨rfl, rfl⟩ := List.cons.inj hs
      obtain ⟨m, i, j, hi, hj, hk⟩ := ih (List.append_assoc _ _ _).symm
      exact ⟨m, i + 1, j, .link hg hi, hj, by omega⟩

theorem not_slash_end {as : List Bytes} : ¬ Opens t k here (as ++ [[]]) l := by
  intro h
  obtain ⟨m, i, j, -, hj, -⟩ := h.split rfl (List.cons_ne_nil [] [])
  exact (isEntryName_iff.1 hj.of_singleton.1).1 rfl

end Opens

namespace FileTree

variable {t : FileTree}

theorem walk_create_nil (t : FileTree) (links : Nat) (here : Location) :
    t.walk .create links here [] = .error .isDirectory := by
  cases links <;> simp [walk, walkSteps]

theorem walk_create_cons (t : FileTree) (links : Nat) (here : Location) (step : Bytes)
    (rest : List Bytes) :
    t.walk .create links here (step :: rest) =
      if !t.isDir here then .error .notDirectory
      else if rest = [[]] ∨ (rest = [] ∧ isDots step) then .error .isDirectory
      else if step = [] ∨ step = [Path.dot] then t.walk .create links here rest
      else if step = [Path.dot, Path.dot] then t.walk .create links here.tail rest
      else if nameLimit < step.length then .error .nameTooLong
      else match t.get? (step :: here), links with
        | none, links =>
          if rest = [] ∧ isEntryName step then .ok (step :: here, links) else .error .notFound
        | some (.link _), 0 => .error .tooManyLinks
        | some (.link target), links + 1 =>
          t.walk .create links (if target.isAbsolute then [] else here) (target.steps ++ rest)
        | some n, links =>
          if rest = [] then if n.isDir then .error .isDirectory else .ok (step :: here, links)
          else t.walk .create links (step :: here) rest := by
  cases links <;> simp only [walk, walkSteps] <;> simp <;>
    cases t.get? (step :: here) with
    | none => rfl
    | some n => cases n <;> simp [walk]

theorem walk_create_cons_cases {links left : Nat} {here l : Location} {step : Bytes}
    {rest : List Bytes} (h : t.walk .create links here (step :: rest) = .ok (l, left)) :
    t.isDir here = true ∧
    ((step = [] ∨ step = [Path.dot]) ∧ t.walk .create links here rest = .ok (l, left) ∨
    step = [Path.dot, Path.dot] ∧ t.walk .create links here.tail rest = .ok (l, left) ∨
    rest = [] ∧ isEntryName step = true ∧ t.get? (step :: here) = none ∧
      l = step :: here ∧ left = links ∨
    (∃ target links', t.get? (step :: here) = some (.link target) ∧ links = links' + 1 ∧
      t.walk .create links' (if target.isAbsolute then [] else here) (target.steps ++ rest) =
        .ok (l, left)) ∨
    ∃ n, t.get? (step :: here) = some n ∧ n.isLink = false ∧
      (rest = [] ∧ n.isDir = false ∧ l = step :: here ∧ left = links ∨
        t.walk .create links (step :: here) rest = .ok (l, left))) := by
  rw [walk_create_cons] at h
  split at h
  · cases h
  next hd =>
  refine ⟨by simpa using hd, ?_⟩
  split at h
  · cases h
  split at h
  · next hs => exact .inl ⟨hs, h⟩
  split at h
  · next hs => exact .inr (.inl ⟨hs, h⟩)
  split at h
  · cases h
  cases hg : t.get? (step :: here) with
  | none =>
    simp only [hg] at h
    split at h
    · next hr =>
      cases h
      exact .inr (.inr (.inl ⟨hr.1, hr.2, rfl, rfl, rfl⟩))
    · cases h
  | some n =>
    cases hn : n.isLink with
    | true =>
      cases n with
      | link target =>
        cases links with
        | zero => simp [hg] at h
        | succ links =>
          simp only [hg] at h
          exact .inr (.inr (.inr (.inl ⟨target, links, rfl, rfl, h⟩)))
      | _ => cases hn
    | false =>
      have h' : (if rest = [] then
          if n.isDir then .error .isDirectory else .ok (step :: here, links)
          else t.walk .create links (step :: here) rest) = .ok (l, left) := by
        cases n with
        | link target => cases hn
        | _ => simpa only [hg] using h
      refine .inr (.inr (.inr (.inr ⟨n, rfl, hn, ?_⟩)))
      split at h'
      · next hr =>
        split at h'
        · cases h'
        · next hdir =>
          cases h'
          exact .inl ⟨hr, by simpa using hdir, rfl, rfl⟩
      · exact .inr h'

theorem exists_opens_of_walk {links left : Nat} {here l : Location} {steps : List Bytes}
    (h : t.walk .create links here steps = .ok (l, left)) :
    ∃ k, Opens t k here steps l ∧ left + k = links := by
  -- A link has its own steps put in front, so the steps get fewer only between two links.
  induction links using Nat.strongRecOn generalizing here steps with
  | ind links ih =>
    induction steps generalizing here with
    | nil =>
      rw [walk_create_nil] at h
      cases h
    | cons step rest ihs =>
      obtain ⟨hd, ⟨hs, hw⟩ | ⟨rfl, hw⟩ | ⟨rfl, hn, hg, rfl, rfl⟩ | ⟨target, links, hg, rfl, hw⟩ |
        ⟨n, hg, hn, hcase⟩⟩ := walk_create_cons_cases h
      · obtain ⟨k, hl, hk⟩ := ihs hw
        exact ⟨k, .stay hd hs hl, hk⟩
      · obtain ⟨k, hl, hk⟩ := ihs hw
        exact ⟨k, .up hd hl, hk⟩
      · exact ⟨0, .new hd hn hg, rfl⟩
      · obtain ⟨k, hl, hk⟩ := ih links (by omega) hw
        exact ⟨k + 1, .link hg hl, by omega⟩
      · rcases hcase with ⟨rfl, hdir, rfl, rfl⟩ | hw
        · exact ⟨0, .old hg hn hdir, rfl⟩
        · obtain ⟨k, hl, hk⟩ := ihs hw
          exact ⟨k, .entry hg hn hl, hk⟩

theorem walk_create_of_opens (left : Nat) {k : Nat} {here l : Location} {steps : List Bytes}
    (h : Opens t k here steps l) : t.walk .create (left + k) here steps = .ok (l, left) := by
  have hrest : ∀ {k : Nat} {here l : Location} {step : Bytes} {rest : List Bytes},
      Opens t k here rest l → ¬ (rest = [[]] ∨ (rest = [] ∧ isDots step)) := by
    intro k here l step rest h hr
    rcases hr with rfl | ⟨rfl, -⟩
    · rw [← List.nil_append [[]]] at h
      exact Opens.not_slash_end h
    · exact h.ne_nil rfl
  induction h with
  | @new here name hd hn hg =>
    obtain ⟨h₁, h₂, h₃, h₄⟩ := isDots_of_isEntryName hn
    rw [walk_create_cons, hd, if_neg (by simp), if_neg (by simp [isDots, h₁, h₂, h₃]),
      if_neg (by simp [h₁, h₂]), if_neg h₃, if_neg h₄, hg]
    simp [hn]
  | @old here name n hg hnl hdir =>
    obtain ⟨h₁, h₂, h₃, h₄⟩ := isDots_of_isEntryName (isEntryName_of_get? hg)
    rw [walk_create_cons, isDir_of_get?_cons hg, if_neg (by simp),
      if_neg (by simp [isDots, h₁, h₂, h₃]), if_neg (by simp [h₁, h₂]), if_neg h₃, if_neg h₄, hg]
    cases n with
    | link target => simp [Node.isLink] at hnl
    | _ => simp [hdir]
  | stay hd hs hl ih =>
    rw [walk_create_cons, hd, if_neg (by simp), if_neg (hrest hl), if_pos hs]
    exact ih
  | @up k here l rest hd hl ih =>
    rw [walk_create_cons, hd, if_neg (by simp), if_neg (hrest hl), if_neg (by simp), if_pos rfl]
    exact ih
  | @entry k here l step rest n hg hn hl ih =>
    obtain ⟨h₁, h₂, h₃, h₄⟩ := isDots_of_isEntryName (isEntryName_of_get? hg)
    rw [walk_create_cons, isDir_of_get?_cons hg, if_neg (by simp), if_neg (hrest hl),
      if_neg (by simp [h₁, h₂]), if_neg h₃, if_neg h₄, hg]
    cases n with
    | link target => simp [Node.isLink] at hn
    | _ => simpa [hl.ne_nil] using ih
  | @link k here l step rest target hg hl ih =>
    obtain ⟨h₁, h₂, h₃, h₄⟩ := isDots_of_isEntryName (isEntryName_of_get? hg)
    have hr : ¬ (rest = [[]] ∨ (rest = [] ∧ isDots step)) := by
      intro hr
      rcases hr with rfl | ⟨-, hr⟩
      · exact Opens.not_slash_end hl
      · simp [isDots, h₁, h₂, h₃] at hr
    rw [walk_create_cons, isDir_of_get?_cons hg, if_neg (by simp), if_neg hr,
      if_neg (by simp [h₁, h₂]), if_neg h₃, if_neg h₄, hg]
    exact ih

theorem walk_create_eq_ok_iff {links left : Nat} {here l : Location} {steps : List Bytes} :
    t.walk .create links here steps = .ok (l, left) ↔
      ∃ k, Opens t k here steps l ∧ left + k = links := by
  constructor
  · exact exists_opens_of_walk
  · intro hx
    obtain ⟨k, h, rfl⟩ := hx
    exact walk_create_of_opens left h

end FileTree

end ResourceManifest
