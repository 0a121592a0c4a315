import ResourceManifest.Proofs.Manifest.Ignoring
import ResourceManifest.Proofs.Walk.Seen

set_option autoImplicit false

namespace ResourceManifest

variable {fs fs' : FileSystem}

/-- A directory that a walk visits, with those around it, where ignore files are heeded. -/
abbrev Walk.VisitedIgnoring (fs : FileSystem) (followLinks : Bool) (root : Path) :
    Visit IgnoreState → List (Visit IgnoreState) → Prop :=
  Visited fs followLinks IgnoreState.guard (IgnoreState.atRoot fs root).1 root

namespace Manifest

variable {job : Job} {root : Path} {allowed : List String}

theorem entries_of_sameSuccess {xs ys : List (Except Failure Path)}
    (h : List.Forall₂ SameSuccess xs ys) :
    SameSuccess (entries root allowed xs).result (entries root allowed ys).result := by
  induction h with
  | nil => exact .refl _
  | @cons x y xs ys hxy _ ih =>
    rcases hxy.oks_or_errors with ⟨p, rfl, rfl⟩ | ⟨f, f', rfl, rfl⟩
    · unfold entries
      cases accepts? allowed p with
      | none => exact ih
      | some accepted =>
        cases accepted with
        | false => exact ih
        | true =>
          cases root.relativeEntry p with
          | none => exact ih
          | some e => exact ih.map (e :: ·)
    · exact .of_errors f f'

theorem exists_error_of_entries {xs : List (Except Failure Path)} {f : Failure}
    (h : .error f ∈ xs) : ∃ f', (entries root allowed xs).result = .error f' := by
  induction xs with
  | nil => cases h
  | cons x xs ih =>
    cases x with
    | error f' => exact ⟨f', rfl⟩
    | ok p =>
      obtain ⟨f', hf⟩ := ih (by simpa using h)
      unfold entries
      cases accepts? allowed p with
      | none => exact ⟨f', hf⟩
      | some accepted =>
        cases accepted with
        | false => exact ⟨f', hf⟩
        | true =>
          cases root.relativeEntry p with
          | none => exact ⟨f', hf⟩
          | some e => exact ⟨f', by simp only [hf]; rfl⟩

theorem exists_error_of_not_dir
    (h : ∀ r mode, fs.look .follow job.root ≠ .ok (r, .dir mode)) :
    ∃ f, (collect fs job).result = .error f := by
  cases hc : (collect fs job).result with
  | error f => exact ⟨f, rfl⟩
  | ok es =>
    obtain ⟨r, mode, hl⟩ := exists_look_of_collect hc
    exact absurd hl (h r mode)

theorem dirs_or_errors (h : fs.LooksAlike fs' job.root) :
    (∃ r mode, fs.look .follow job.root = .ok (r, .dir mode) ∧
      fs'.look .follow job.root = .ok (r, .dir mode)) ∨
    SameSuccess (collect fs job).result (collect fs' job).result := by
  by_cases hdir : ∃ r mode, fs.look .follow job.root = .ok (r, .dir mode)
  · obtain ⟨r, mode, hl⟩ := hdir
    exact .inl ⟨r, mode, hl, h.look_dir hl⟩
  · obtain ⟨f, hf⟩ := exists_error_of_not_dir fun r mode hl => hdir ⟨r, mode, hl⟩
    obtain ⟨f', hf'⟩ := exists_error_of_not_dir fun r mode hl' =>
      hdir ⟨r, mode, h.symm.look_dir hl'⟩
    rw [hf, hf']
    exact .inr (.of_errors f f')

theorem exists_error_of_findFiles {f : Failure}
    (h : .error f ∈ findFiles fs job.root job.followLinks job.respectIgnore) :
    ∃ f', (collect fs job).result = .error f' := by
  unfold collect
  cases checkRoot fs job.root with
  | error f' => exact ⟨f', rfl⟩
  | ok u => exact exists_error_of_entries h

theorem exists_error_of_opening (hig : job.respectIgnore = true)
    (h : (Walk.opening fs job.root).1 ≠ []) : ∃ f, (collect fs job).result = .error f := by
  obtain ⟨f, hf⟩ := List.exists_mem_of_ne_nil _ h
  refine exists_error_of_findFiles (f := .ignore job.root f) ?_
  simp only [findFiles, hig, if_true, Walk.unignored, List.map_append, List.map_map]
  exact List.mem_append_left _ (List.mem_map.2 ⟨f, hf, rfl⟩)

theorem error_mem_files {σ : Type} {guard : Guard σ} {s : σ} {v : Walk.Visit σ}
    {up : List (Walk.Visit σ)} {w : WalkFault}
    (hv : Walk.Visited fs job.followLinks guard s job.root v up)
    (he : Walk.Emits fs job.followLinks guard job.root v up (.error w)) :
    .error w ∈ Walk.files fs job.followLinks guard s job.root := by
  obtain ⟨r, d, hl, hd⟩ := hv.exists_look_root
  rw [Walk.files_of_dir hl hd]
  exact List.mem_map.2 ⟨_, (Walk.mem_found_iff hl hd).2 ⟨v, up, hv, he⟩, rfl⟩

theorem exists_error_of_emits_plain (hig : job.respectIgnore = false) {v : Walk.Visit Unit}
    {up : List (Walk.Visit Unit)} {w : WalkFault}
    (hv : Walk.Visited fs job.followLinks Guard.open () job.root v up)
    (he : Walk.Emits fs job.followLinks Guard.open job.root v up (.error w)) :
    ∃ f, (collect fs job).result = .error f := by
  refine exists_error_of_findFiles (f := .walk job.root w) ?_
  simp only [findFiles, hig, Bool.false_eq_true, if_false]
  exact List.mem_map.2 ⟨_, error_mem_files hv he, rfl⟩

theorem exists_error_of_emits_ignoring (hig : job.respectIgnore = true)
    (hstd : Walk.isStandardInput job.root = false) {v : Walk.Visit IgnoreState}
    {up : List (Walk.Visit IgnoreState)} {w : WalkFault}
    (hv : Walk.VisitedIgnoring fs job.followLinks job.root v up)
    (he : Walk.Emits fs job.followLinks IgnoreState.guard job.root v up (.error w)) :
    ∃ f, (collect fs job).result = .error f := by
  obtain ⟨r, d, hl, hd⟩ := hv.exists_look_root
  cases d with
  | dir mode =>
    cases hc : (collect fs job).result with
    | error f => exact ⟨f, rfl⟩
    | ok es =>
      have hop := opening_of_collect hig hstd hl hc
      rcases collect_ignoring_of_begun hig hop hl with ⟨found, hf, -⟩ | ⟨w', -, hc'⟩
      · have hw := (Walk.mem_found_iff hl rfl).2 ⟨v, up, hv, he⟩
        rw [hf] at hw
        simp at hw
      · exact ⟨_, hc.symm.trans hc'⟩
  | _ => cases hd

theorem collect_plain_seen (hig : job.respectIgnore = false) (hroot : fs.LooksAlike fs' job.root)
    (h : Walk.SeenAlike fs fs' job.followLinks Guard.open () job.root) :
    SameSuccess (collect fs job).result (collect fs' job).result := by
  rcases dirs_or_errors hroot with ⟨r, mode, hl, hl'⟩ | hsame
  · simp only [collect, checkRoot_of_dir hl rfl, checkRoot_of_dir hl' rfl, findFiles, hig,
      Bool.false_eq_true, if_false, Walk.files_of_dir hl rfl, Walk.files_of_dir hl' rfl,
      List.map_map]
    exact entries_of_sameSuccess (List.rel_map
      (fun _ _ hxy => (hxy.map job.root.joinAll).mapError _ _) (h.found hl hl' rfl rfl))
  · exact hsame

/-- What a job that heeds ignore files lists is settled by what is known before its walk begins and
by what the walk sees then. -/
theorem collect_ignoring_seen (hig : job.respectIgnore = true)
    (hroot : fs.LooksAlike fs' job.root)
    (hstart : (Walk.opening fs job.root).2 = (Walk.opening fs' job.root).2)
    (hfaults : (Walk.opening fs job.root).1 = [] ↔ (Walk.opening fs' job.root).1 = [])
    (h : ∀ s, Walk.opening fs job.root = ([], some s) →
      Walk.SeenAlike fs fs' job.followLinks IgnoreState.guard s job.root) :
    SameSuccess (collect fs job).result (collect fs' job).result := by
  rcases dirs_or_errors hroot with ⟨r, mode, hl, hl'⟩ | hsame
  · rw [collect_ignoring_of_opening hig hl, collect_ignoring_of_opening hig hl']
    rcases hop : Walk.opening fs job.root with ⟨before, start?⟩
    rcases hop' : Walk.opening fs' job.root with ⟨before', start'?⟩
    rw [hop, hop'] at hstart hfaults
    obtain rfl : start? = start'? := hstart
    cases before with
    | cons f before =>
      cases before' with
      | nil => exact absurd (hfaults.2 rfl) (List.cons_ne_nil f before)
      | cons f' before' => exact .of_errors _ _
    | nil =>
      obtain rfl : before' = [] := hfaults.1 rfl
      cases start? with
      | none => exact .refl _
      | some s =>
        exact entries_of_sameSuccess (List.rel_map
          (fun _ _ hxy => (hxy.map job.root.joinAll).mapError _ _)
          ((h s hop).found hl hl' rfl rfl))
  · exact hsame

end Manifest

end ResourceManifest
