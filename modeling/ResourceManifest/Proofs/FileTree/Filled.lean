import ResourceManifest.Proofs.FileTree.Opens

set_option autoImplicit false

namespace ResourceManifest

def FileTree.DeadEnd (t : FileTree) (l : Location) : Prop :=
  ∀ name parent k m, l = name :: parent → Leads t k parent [name] m → t.isDir m = false

/-- A file stands at a dead end of the one tree, and elsewhere the other is the same. -/
structure Filled (t t' : FileTree) (l : Location) : Prop where
  place : t.IsPlace l
  deadEnd : t.DeadEnd l
  file : ∃ n, t'.get? l = some n ∧ n.isFile = true
  others : ∀ l', l' ≠ l → t'.get? l' = t.get? l'

theorem Node.isDir_of_isFile {n : Node} (h : n.isFile = true) : n.isDir = false := by
  cases n with
  | file mode content => rfl
  | _ => cases h

theorem Node.isLink_of_isFile {n : Node} (h : n.isFile = true) : n.isLink = false := by
  cases n with
  | file mode content => rfl
  | _ => cases h

theorem FileTree.IsPlace.deadEnd {t : FileTree} {l : Location} (h : t.IsPlace l)
    (hlink : ∀ n, t.get? l = some n → n.isLink = false) : t.DeadEnd l := by
  rintro name parent k m rfl hm
  have hname : isEntryName name = true := by
    have hall := h.named
    rw [List.all_cons, Bool.and_eq_true] at hall
    exact hall.1
  obtain ⟨h₁, h₂, h₃, -⟩ := isDots_of_isEntryName hname
  cases hm with
  | stay _ hs _ =>
    rcases hs with hs | hs
    · exact absurd hs h₁
    · exact absurd hs h₂
  | up _ _ => exact absurd rfl h₃
  | entry _ _ hd =>
    cases hd
    exact h.free
  | link hg _ =>
    have hfalse := hlink _ hg
    cases hfalse

namespace Filled

variable {t t' : FileTree} {k : Nat} {here l m : Location} {steps : List Bytes}

theorem isDir (h : Filled t t' l) {d : Location} (hd : t.isDir d = true) :
    d ≠ l ∧ t'.isDir d = true := by
  have hne : d ≠ l := by
    rintro rfl
    rw [h.place.free] at hd
    cases hd
  refine ⟨hne, ?_⟩
  rw [FileTree.isDir, h.others d hne]
  exact hd

theorem get?_cases (h : Filled t t' l) {l' : Location} {n : Node} (hn : t'.get? l' = some n) :
    (l' = l ∧ n.isFile = true) ∨ (l' ≠ l ∧ t.get? l' = some n) := by
  by_cases hl : l' = l
  · obtain ⟨d, hd, hfile⟩ := h.file
    rw [hl, hd] at hn
    exact .inl ⟨hl, Option.some.inj hn ▸ hfile⟩
  · exact .inr ⟨hl, h.others l' hl ▸ hn⟩

theorem leads (h : Filled t t' l) (hm : Leads t k here steps m) :
    ∃ k' m', k' ≤ k ∧ Leads t' k' here steps m' ∧
      (m' = m ∨ m' = l ∧ t.isDir m = false) := by
  obtain ⟨d, hd, hfile⟩ := h.file
  have hlast : ∀ {name parent}, name :: parent = l → Leads t' 0 parent [name] l := by
    rintro name parent rfl
    exact .entry hd (Node.isLink_of_isFile hfile) .done
  induction hm with
  | done => exact ⟨0, _, Nat.le_refl 0, .done, .inl rfl⟩
  | stay hdir hs _ ih =>
    obtain ⟨k', m', hk, hl, hcase⟩ := ih
    exact ⟨k', m', hk, .stay (h.isDir hdir).2 hs hl, hcase⟩
  | up hdir _ ih =>
    obtain ⟨k', m', hk, hl, hcase⟩ := ih
    exact ⟨k', m', hk, .up (h.isDir hdir).2 hl, hcase⟩
  | @entry k here m step rest n hg hn hl ih =>
    by_cases hstep : step :: here = l
    · -- A place for a file is no directory, so the way ends there.
      cases rest with
      | nil =>
        cases hl
        exact ⟨0, l, Nat.le_refl 0, hlast hstep, .inl hstep.symm⟩
      | cons a rest => exact absurd hstep (h.isDir hl.isDir).1
    · obtain ⟨k', m', hk, hl', hcase⟩ := ih
      exact ⟨k', m', hk, .entry ((h.others _ hstep).trans hg) hn hl', hcase⟩
  | @link k here m step rest target hg hl ih =>
    have hway : Leads t (k + 1) here (step :: rest) m := .link hg hl
    by_cases hstep : step :: here = l
    · cases rest with
      | nil =>
        exact ⟨0, l, Nat.zero_le _, hlast hstep, .inr ⟨rfl, h.deadEnd _ _ _ _ hstep.symm hway⟩⟩
      | cons a rest =>
        obtain ⟨x, i, j, hi, hj, -⟩ := hway.split (List.singleton_append (x := step)).symm
        have hx := h.deadEnd _ _ _ _ hstep.symm hi
        rw [hj.isDir] at hx
        cases hx
    · obtain ⟨k', m', hk, hl', hcase⟩ := ih
      exact ⟨k' + 1, m', by omega, .link ((h.others _ hstep).trans hg) hl', hcase⟩

theorem leads_dir (h : Filled t t' l) (hm : Leads t k here steps m) (hd : t.isDir m = true) :
    ∃ k', k' ≤ k ∧ Leads t' k' here steps m := by
  obtain ⟨k', m', hk, hl, rfl | ⟨-, hfree⟩⟩ := h.leads hm
  · exact ⟨k', hk, hl⟩
  · rw [hd] at hfree
    cases hfree

end Filled

theorem Leads.opens {t : FileTree} {k : Nat} {here l : Location} {steps : List Bytes} {n : Node}
    (h : Leads t k here steps l) (hne : steps ≠ []) (hg : t.get? l = some n)
    (hfile : n.isFile = true) : Opens t k here steps l := by
  have hfree : t.isDir l ≠ true := by
    rw [FileTree.isDir_of_get? hg, Node.isDir_of_isFile hfile]
    exact Bool.false_ne_true
  induction h with
  | done => exact absurd rfl hne
  | @stay k here l step rest hd hs hl ih =>
    refine .stay hd hs (ih ?_ hg hfree)
    rintro rfl
    cases hl
    exact hfree hd
  | @up k here l rest hd hl ih =>
    refine .up hd (ih ?_ hg hfree)
    rintro rfl
    cases hl
    exact hfree (FileTree.isDir_tail hd)
  | @entry k here l step rest d hd hlink hl ih =>
    cases rest with
    | nil =>
      cases hl
      cases hd.symm.trans hg
      exact .old hd hlink (Node.isDir_of_isFile hfile)
    | cons a rest => exact .entry hd hlink (ih (List.cons_ne_nil a rest) hg hfree)
  | @link k here l step rest target hd hl ih =>
    refine .link hd (ih (fun hnil => ?_) hg hfree)
    rw [hnil] at hl
    cases hl
    refine hfree ?_
    split
    · exact FileTree.isDir_nil t
    · exact FileTree.isDir_of_get?_cons hd

end ResourceManifest
