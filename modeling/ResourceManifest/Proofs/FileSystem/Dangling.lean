import ResourceManifest.Proofs.FileSystem.Alike

set_option autoImplicit false

namespace ResourceManifest

/-- In the second file system a link has been put where nothing was, and it leads nowhere, as far as
the system follows it. -/
structure AddsDangling (fs fs' : FileSystem) (l : Location) : Prop where
  free : fs.tree.get? l = none
  link : ∃ target, fs'.tree.get? l = some (.link target)
  dangling : ∀ name parent x, l = name :: parent →
    fs'.tree.walk .follow linkLimit parent [name] ≠ .ok x
  others : ∀ l', l' ≠ l → fs'.tree.get? l' = fs.tree.get? l'
  cwd : fs'.cwd = fs.cwd
  ignoring : fs'.ignoring = fs.ignoring

theorem addsDangling_put {fs : FileSystem} {l : Location} {target : Path}
    (hfree : fs.tree.get? l = none)
    (hlink : (fs.put l (.link target)).tree.get? l = some (.link target))
    (hd : ∀ name parent x, l = name :: parent →
      (fs.put l (.link target)).tree.walk .follow linkLimit parent [name] ≠ .ok x) :
    AddsDangling fs (fs.put l (.link target)) l where
  free := hfree
  link := ⟨target, hlink⟩
  dangling := hd
  others l' hl' := by
    have ht : fs.tree.Takes l (.link target) := Classical.byContradiction fun ht => by
      rw [FileSystem.put, FileTree.put_of_not_takes ht, hfree] at hlink
      cases hlink
    exact (FileTree.get?_put_of_takes ht l').trans (if_neg hl')
  cwd := rfl
  ignoring := rfl

namespace AddsDangling

variable {fs fs' : FileSystem} {l here m : Location} {p : Path} {k : Nat} {steps : List Bytes}

theorem get?_of_get? (h : AddsDangling fs fs' l) (m : Location) (n : Node)
    (hn : fs.tree.get? m = some n) : fs'.tree.get? m = some n := by
  refine (h.others m ?_).trans hn
  rintro rfl
  cases h.free.symm.trans hn

theorem not_leads (h : AddsDangling fs fs' l) {name : Name} {parent : Location}
    (hl : l = name :: parent) (hk : k ≤ linkLimit) : ¬ Leads fs'.tree k parent [name] m := by
  intro hm
  have hw := FileTree.walk_follow_of_leads (linkLimit - k) hm
  rw [Nat.sub_add_cancel hk] at hw
  exact h.dangling name parent _ hl hw

theorem isDir (h : AddsDangling fs fs' l) (m : Location) : fs'.tree.isDir m = fs.tree.isDir m := by
  by_cases hm : m = l
  · obtain ⟨target, ht⟩ := h.link
    rw [hm, FileTree.isDir_of_get? ht, FileTree.isDir, h.free]
    rfl
  · rw [FileTree.isDir, h.others m hm, FileTree.isDir]

theorem leads_of_leads (h : AddsDangling fs fs' l) (hm : Leads fs'.tree k here steps m)
    (hk : k ≤ linkLimit) : Leads fs.tree k here steps m := by
  induction hm with
  | done => exact .done
  | stay hd hs _ ih => exact .stay (h.isDir _ ▸ hd) hs (ih hk)
  | up hd _ ih => exact .up (h.isDir _ ▸ hd) (ih hk)
  | @entry k here m step rest n hg hn _ ih =>
    refine .entry ((h.others _ ?_).symm.trans hg) hn (ih hk)
    intro hl
    obtain ⟨target, ht⟩ := h.link
    rw [hl, ht] at hg
    cases hg
    cases hn
  | @link k here m step rest target hg hl ih =>
    refine .link ((h.others _ ?_).symm.trans hg) (ih (by omega))
    intro hstep
    have hway : Leads fs'.tree (k + 1) here (step :: rest) m := .link hg hl
    obtain ⟨x, i, j, hi, -, hij⟩ := hway.split (List.singleton_append (x := step)).symm
    exact h.not_leads hstep.symm (by omega) hi

theorem reaches_iff (h : AddsDangling fs fs' l) : fs.Reaches p m ↔ fs'.Reaches p m := by
  constructor
  · exact fun hm => hm.mono h.cwd h.get?_of_get?
  · rintro ⟨h₀, h₁, h₂, k, hk, hl⟩
    exact ⟨h₀, h₁, h₂, k, hk, h.leads_of_leads (FileSystem.start_congr h.cwd p ▸ hl) hk⟩

theorem look (h : AddsDangling fs fs' l) (p : Path) :
    SameSuccess (fs.look .follow p) (fs'.look .follow p) := by
  rintro ⟨m, n⟩
  rw [FileSystem.look_follow_eq_ok_iff, FileSystem.look_follow_eq_ok_iff]
  constructor
  · exact fun hm => ⟨h.reaches_iff.1 hm.1, h.get?_of_get? m n hm.2⟩
  · intro hm
    refine ⟨h.reaches_iff.2 hm.1, (h.others m ?_).symm.trans hm.2⟩
    rintro rfl
    obtain ⟨target, ht⟩ := h.link
    cases hm.1.isLink ht

theorem exists_look_error (h : AddsDangling fs fs' l) {name : Name} {parent : Location}
    (hl : l = name :: parent) (hp : fs.Reaches p parent) :
    ∃ f, fs'.look .follow (p.join name) = .error f := by
  cases hlook : fs'.look .follow (p.join name) with
  | error f => exact ⟨f, rfl⟩
  | ok x =>
    obtain ⟨target, ht⟩ := h.link
    obtain ⟨hr, -⟩ := FileSystem.look_follow_eq_ok_iff.1 hlook
    obtain ⟨k, hk, hm⟩ := (h.reaches_iff.1 hp).leads_of_join
      (FileTree.isEntryName_of_get? (hl ▸ ht)) hr
    exact absurd hm (h.not_leads hl hk)

end AddsDangling

end ResourceManifest
