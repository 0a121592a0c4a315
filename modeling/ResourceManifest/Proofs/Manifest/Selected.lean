import ResourceManifest.Proofs.Extension.Accepted
import ResourceManifest.Proofs.Manifest.Reversible

/-!
The part that the extensions have in a listing. They select among the files that the walk finds,
which are the same for all lists of extensions, and an entry tells by itself whether it is selected.
-/

set_option autoImplicit false

namespace ResourceManifest

open ResourceManifest.Path

variable {fs : FileSystem} {root : Path} {job : Job} {allowed l₁ l₂ : List String}
  {names : List (List Name)} {ns : List Name}

theorem isAllowed_of_subset {name : String} (hsub : l₁ ⊆ l₂) (h : isAllowed name l₁ = true) :
    isAllowed name l₂ = true := by
  obtain ⟨stem, e, hstem, hne, hmem, hdot, hname⟩ := isAllowed_iff.1 h
  exact isAllowed_iff.2 ⟨stem, e, hstem, hne, hsub hmem, hdot, hname⟩

theorem isAllowed_congr {name : String} (h : ∀ e, e ∈ l₁ ↔ e ∈ l₂) :
    isAllowed name l₁ = isAllowed name l₂ :=
  Bool.eq_iff_iff.2 ⟨isAllowed_of_subset fun e => (h e).1, isAllowed_of_subset fun e => (h e).2⟩

theorem Preset.images_subset_assets : Preset.images.extensions ⊆ Preset.assets.extensions := by
  decide

namespace Manifest

theorem entries_cases (root : Path) (items : List (Except Failure Path)) :
    (∃ f, ∀ allowed, (entries root allowed items).result = .error f) ∨
    ∃ files : List Path, items = files.map .ok := by
  induction items with
  | nil => exact .inr ⟨[], rfl⟩
  | cons item items ih =>
    cases item with
    | error f => exact .inl ⟨f, fun _ => rfl⟩
    | ok file =>
      rcases ih with ⟨f, hf⟩ | ⟨files, rfl⟩
      · refine .inl ⟨f, fun allowed => ?_⟩
        have hmore := hf allowed
        cases ha : accepts? allowed file with
        | none => simp [entries, ha, hmore]
        | some selected =>
          cases selected <;> cases he : root.relativeEntry file <;>
            simp [entries, ha, he, hmore, Except.map]
      · exact .inr ⟨file :: files, rfl⟩

/-- What a listing finds is the same for all extensions: a fault, or the files that lie below the
root. -/
theorem collect_cases (fs : FileSystem) (job : Job) :
    (∃ f, ∀ allowed, (collect fs { job with allowed }).result = .error f) ∨
    ∃ names : List (List Name), Walk.Below fs job.root names ∧ [] ∉ names ∧
      findFiles fs job.root job.followLinks job.respectIgnore =
        names.map (fun ns => .ok (job.root.joinAll ns)) ∧
      ∀ allowed, (collect fs { job with allowed }).result =
        .ok ((names.filter (accepted allowed)).map entryText) := by
  cases hcheck : checkRoot fs job.root with
  | error f => exact .inl ⟨f, fun allowed => by simp [collect, hcheck]⟩
  | ok u =>
    obtain ⟨r, mode, hl⟩ := exists_look_of_checkRoot hcheck
    simp only [collect, hcheck]
    refine (entries_cases job.root _).imp_right fun hfiles => ?_
    obtain ⟨files, hfiles⟩ := hfiles
    obtain ⟨names, hnames, hb⟩ := exists_names_of_findFiles hfiles
    have hfind : findFiles fs job.root job.followLinks job.respectIgnore =
        names.map (fun ns => .ok (job.root.joinAll ns)) := by
      rw [hfiles, hnames, List.map_map]
      rfl
    have hnil := hb.nil_notMem hl rfl
    refine ⟨names, hb, hnil, hfind, fun allowed => ?_⟩
    rw [hfind]
    exact entries_of_names (FileSystem.look_follow_eq_ok_iff.1 hl).1.bytes_ne_nil allowed
      fun ns hns => ⟨fun hne => hnil (hne ▸ hns), hb.isEntryName ns hns⟩

theorem accepted_eq (allowed : List String) (hne : ns ≠ []) (hs : ∀ n ∈ ns, slash ∉ n) :
    accepted allowed ns = isAllowed (lastPart (entryText ns)) allowed := by
  obtain ⟨ms, n, rfl⟩ := (List.eq_nil_or_concat ns).resolve_left hne
  rw [List.concat_eq_append] at hs ⊢
  rw [lastPart_entryText_snoc (hs n (by simp))]
  simp [accepted]

theorem filter_entries (hb : Walk.Below fs root names) (hnil : [] ∉ names) (hsub : l₁ ⊆ l₂) :
    ((names.filter (accepted l₂)).map entryText).filter (fun e => isAllowed (lastPart e) l₁) =
      (names.filter (accepted l₁)).map entryText := by
  have hacc : ∀ allowed, ∀ ns ∈ names,
      accepted allowed ns = isAllowed (lastPart (entryText ns)) allowed := fun allowed ns hns =>
    accepted_eq allowed (fun hne => hnil (hne ▸ hns)) fun n hn => (hb.isSegment hns n hn).noSlash
  rw [List.filter_map, List.filter_filter]
  refine congrArg (List.map entryText) (List.filter_congr fun ns hns => ?_)
  rw [Function.comp_apply, ← hacc l₁ ns hns, hacc l₂ ns hns, hacc l₁ ns hns]
  cases ha : isAllowed (lastPart (entryText ns)) l₁ with
  | false => rfl
  | true => simp [isAllowed_of_subset hsub ha]

/-- Listings by different extensions all fail alike, or all succeed. Then each of them holds those
entries of every listing by more extensions that it selects itself, in the order that they have
there; so it depends on no more than which extensions there are, and the pictures are among the
assets. -/
theorem collect_selected (fs : FileSystem) (job : Job) :
    (∃ f, ∀ allowed, (collect fs { job with allowed }).result = .error f) ∨
    ∃ selected : List String → List String,
      (∀ allowed, (collect fs { job with allowed }).result = .ok (selected allowed)) ∧
      (∀ l₁ l₂, selected l₁ =
        (selected (l₁ ++ l₂)).filter fun e => isAllowed (lastPart e) l₁) ∧
      (∀ l₁ l₂, (∀ e, e ∈ l₁ ↔ e ∈ l₂) → selected l₁ = selected l₂) ∧
      (selected Preset.images.extensions).Sublist (selected Preset.assets.extensions) := by
  rcases collect_cases fs job with hf | ⟨names, hb, hnil, -, hc⟩
  · exact .inl hf
  · refine .inr ⟨fun allowed => (names.filter (accepted allowed)).map entryText, hc, ?_, ?_, ?_⟩
    · exact fun l₁ l₂ => (filter_entries hb hnil (List.subset_append_left l₁ l₂)).symm
    · intro l₁ l₂ hsame
      have hacc : accepted l₁ = accepted l₂ := by
        funext ns
        simp only [accepted, isAllowed_congr hsame]
      simp only [hacc]
    · simp only [← filter_entries hb hnil Preset.images_subset_assets]
      exact List.filter_sublist

end Manifest

end ResourceManifest
