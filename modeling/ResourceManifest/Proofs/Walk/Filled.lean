import ResourceManifest.Proofs.FileTree.Filled
import ResourceManifest.Proofs.Walk.Visit

set_option autoImplicit false

namespace ResourceManifest

section Paths

variable {fs fs' : FileSystem} {p : Path} {l m : Location} {d : Node}

theorem Filled.reaches (h : Filled fs.tree fs'.tree l) (hcwd : fs'.cwd = fs.cwd)
    (hm : fs.Reaches p m) :
    ∃ m', fs'.Reaches p m' ∧ (m' = m ∨ m' = l ∧ fs.tree.isDir m = false) := by
  obtain ⟨h₀, h₁, h₂, k, hk, hl⟩ := hm
  obtain ⟨k', m', hk', hl', hcase⟩ := h.leads hl
  refine ⟨m', ⟨h₀, h₁, h₂, k', by omega, ?_⟩, hcase⟩
  rwa [FileSystem.start_congr hcwd]

/-- What was found at a path is found there still, or a file is found instead of what was no
directory. -/
theorem Filled.look (h : Filled fs.tree fs'.tree l) (hcwd : fs'.cwd = fs.cwd)
    (hlook : fs.look .follow p = .ok (m, d)) :
    ∃ m' d', fs'.look .follow p = .ok (m', d') ∧ d'.isDir = d.isDir ∧
      (d.isDir = true → m' = m) := by
  obtain ⟨hr, hg⟩ := FileSystem.look_follow_eq_ok_iff.1 hlook
  obtain ⟨m', hr', hcase⟩ := h.reaches hcwd hr
  obtain ⟨n, hn, hfile⟩ := h.file
  have hdir := FileTree.isDir_of_get? hg
  have hfree (hd : d.isDir = false) : fs'.look .follow p = .ok (m', n) → ∃ m' d',
      fs'.look .follow p = .ok (m', d') ∧ d'.isDir = d.isDir ∧ (d.isDir = true → m' = m) := by
    intro hl
    refine ⟨m', n, hl, by rw [hd, Node.isDir_of_isFile hfile], fun hd' => ?_⟩
    rw [hd] at hd'
    cases hd'
  by_cases hml : m' = l
  · refine hfree ?_ (FileSystem.look_follow_eq_ok_iff.2 ⟨hr', hml ▸ hn⟩)
    rcases hcase with rfl | ⟨-, hd⟩
    · rw [← hdir, hml]
      exact h.place.free
    · rwa [← hdir]
  · obtain rfl := hcase.resolve_right fun hc => hml hc.1
    exact ⟨m', d, FileSystem.look_follow_eq_ok_iff.2 ⟨hr', (h.others m' hml).trans hg⟩, rfl,
      fun _ => rfl⟩

end Paths

namespace Walk

variable {fs fs' : FileSystem} {followLinks : Bool} {above : List Ancestor} {p : Path}
  {l : Location} {n : Node}

/-- An entry that was not broken is a directory to be entered if it was one, and else no
directory. -/
theorem plainKind_of_filled (h : Filled fs.tree fs'.tree l) (hcwd : fs'.cwd = fs.cwd)
    (hok : ∀ f, plainKind fs followLinks above p n ≠ .broken f) :
    (plainKind fs' followLinks above p n = .directory ∧
      plainKind fs followLinks above p n = .directory) ∨
    plainKind fs' followLinks above p n = .regular ∨
    plainKind fs' followLinks above p n = .other := by
  cases n with
  | dir mode => exact .inl ⟨rfl, rfl⟩
  | file mode content => exact .inr (.inl rfl)
  | fifo mode => exact .inr (.inr rfl)
  | device kind mode => exact .inr (.inr rfl)
  | link target =>
    cases followLinks with
    | false =>
      right
      cases hl : fs'.look .follow p with
      | error f => simp [plainKind, hl]
      | ok r => by_cases hr : r.2.isFile = true <;> simp [plainKind, hl, hr]
    | true =>
      cases hl : fs.look .follow p with
      | error f => exact absurd (by simp [plainKind, hl]) (hok (.file p f))
      | ok r =>
        obtain ⟨m, d⟩ := r
        obtain ⟨m', d', hl', hd, hm⟩ := h.look hcwd hl
        cases hdir : d.isDir with
        | false =>
          right
          by_cases hf : d'.isFile = true
          · simp [plainKind, hl', hf]
          · simp [plainKind, hl', hf, hd, hdir]
        | true =>
          left
          obtain rfl := hm hdir
          have hf : d.isFile = false := by cases d <;> simp_all [Node.isDir, Node.isFile]
          have hf' : d'.isFile = false := by cases d' <;> simp_all [Node.isDir, Node.isFile]
          cases ha : above.find? (·.location = m') with
          | some a => exact absurd (by simp [plainKind, hl, hf, hdir, ha]) (hok (.loop a.path p))
          | none => simp [plainKind, hl, hl', hf, hf', hd, hdir, ha]

theorem atEntry_of_filled (h : Filled fs.tree fs'.tree l) (hcwd : fs'.cwd = fs.cwd)
    {inside inside' : Unit → Path → Finds} {m : Location} {name : Name}
    (hin : (∀ w, .error w ∉ inside () (p.join name)) → ∀ w, .error w ∉ inside' () (p.join name))
    (hok : ∀ w, .error w ∉ atEntry fs followLinks Guard.open inside above () p m name)
    (w : WalkFault) : .error w ∉ atEntry fs' followLinks Guard.open inside' above () p m name := by
  intro hw
  obtain ⟨n, hn⟩ := exists_get?_of_mem_atEntry hw
  rcases h.get?_cases hn with ⟨-, hfile⟩ | ⟨-, hg⟩
  · have hk : kind fs' Guard.open followLinks above (p.join name) n = .regular :=
      kind_eq_regular_iff.2 (.inl hfile)
    rcases (mem_atEntry_iff hn).1 hw with ⟨f, hk', -⟩ | ⟨hk', -⟩ | ⟨-, -, hx⟩
    · rw [hk] at hk'
      cases hk'
    · rw [hk] at hk'
      cases hk'
    · cases hx
  · have hok' : ∀ f, plainKind fs followLinks above (p.join name) n ≠ .broken f := fun f hf =>
      hok f ((mem_atEntry_iff hg).2 (.inl ⟨f, kind_open.trans hf, rfl⟩))
    have hkind := plainKind_of_filled h hcwd hok'
    rcases (mem_atEntry_iff hn).1 hw with ⟨f, hk, -⟩ | ⟨hk, -, y, hy, hx⟩ | ⟨-, -, hx⟩
    · rw [kind_open] at hk
      simp [hk] at hkind
    · rw [kind_open] at hk
      have hdir : kind fs Guard.open followLinks above (p.join name) n = .directory := by
        simpa [hk] using hkind
      cases y with
      | ok ns => cases hx
      | error x =>
        refine hin (fun x hx => ?_) x hy
        exact hok x ((mem_atEntry_iff hg).2 (.inr (.inl ⟨hdir, rfl, _, hx, rfl⟩)))
    · cases hx

theorem found_of_filled (h : Filled fs.tree fs'.tree l) (hcwd : fs'.cwd = fs.cwd) {levels : Nat}
    (hok : ∀ w, .error w ∉ found fs followLinks Guard.open levels above () p) (w : WalkFault) :
    .error w ∉ found fs' followLinks Guard.open levels above () p := by
  induction levels generalizing above p w with
  | zero => exact List.not_mem_nil
  | succ levels ih =>
    obtain ⟨m, d, hl, hd⟩ := look_of_found hok
    obtain ⟨m', d', hl', hd', hm⟩ := h.look hcwd hl
    obtain rfl := hm hd
    rw [found_of_dir hl hd] at hok
    rw [found_of_dir hl' (hd'.trans hd)]
    intro hw
    obtain ⟨name, -, hw⟩ := List.mem_flatMap.1 hw
    refine atEntry_of_filled h hcwd ih (fun x hx => ?_) w hw
    -- What the entry held before was found, under a name that stands in the directory.
    obtain ⟨n, hg⟩ := exists_get?_of_mem_atEntry hx
    exact hok x (List.mem_flatMap.2 ⟨name, FileTree.mem_names_iff.2 ⟨n, hg⟩, hx⟩)

end Walk

end ResourceManifest
