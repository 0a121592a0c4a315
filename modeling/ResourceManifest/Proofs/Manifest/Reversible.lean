import ResourceManifest.Proofs.Manifest.Ordered
import ResourceManifest.Proofs.Path.EntryText

/-!
What an entry tells of its file. Under every spelling of the root a file has an entry, so that none
is lost from a manifest; and unless a name on the way is no text, the names and the file itself can
be told from the entry.
-/

set_option autoImplicit false

namespace ResourceManifest

open ResourceManifest.Path ResourceManifest.Utf8

variable {fs : FileSystem} {root : Path} {job : Job} {allowed : List String} {es : List String}

namespace Manifest

theorem exists_files_of_entries {items : List (Except Failure Path)}
    (h : (entries root allowed items).result = .ok es) :
    ∃ files : List Path, items = files.map .ok ∧
      es.map some = ((files.filter fun f => accepts? allowed f = some true).map
        root.relativeEntry).filter Option.isSome := by
  induction items generalizing es with
  | nil =>
    obtain rfl : es = [] := by simpa [entries] using h.symm
    exact ⟨[], rfl, rfl⟩
  | cons item items ih =>
    cases item with
    | error f => simp [entries] at h
    | ok file =>
      simp only [entries] at h
      by_cases ha : accepts? allowed file = some true
      · rw [ha] at h
        cases he : root.relativeEntry file with
        | none =>
          rw [he] at h
          obtain ⟨files, rfl, hes⟩ := ih h
          exact ⟨file :: files, rfl, by simp [ha, he, hes]⟩
        | some e =>
          rw [he] at h
          cases hm : (entries root allowed items).result with
          | error f => simp [hm, Except.map] at h
          | ok es' =>
            obtain ⟨files, rfl, hes⟩ := ih hm
            obtain rfl : e :: es' = es := by simpa [hm, Except.map] using h
            exact ⟨file :: files, rfl, by simp [ha, he, hes]⟩
      · have hrest : (entries root allowed items).result = .ok es := by
          cases hc : accepts? allowed file with
          | none => rwa [hc] at h
          | some accepted =>
            cases accepted with
            | false => rwa [hc] at h
            | true => exact absurd hc ha
        obtain ⟨files, rfl, hes⟩ := ih hrest
        exact ⟨file :: files, rfl, by simp [ha, hes]⟩

theorem exists_files_of_collect (h : (collect fs job).result = .ok es) :
    ∃ files : List Path,
      findFiles fs job.root job.followLinks job.respectIgnore = files.map .ok ∧
      es.map some = (files.filter fun f => accepts? job.allowed f = some true).map
        job.root.relativeEntry := by
  obtain ⟨r, mode, hl⟩ := exists_look_of_collect h
  have hcheck := checkRoot_of_dir hl rfl
  simp only [collect, hcheck] at h
  obtain ⟨files, hfiles, hes⟩ := exists_files_of_entries h
  refine ⟨files, hfiles, hes.trans (List.filter_eq_self.2 ?_)⟩
  obtain ⟨names, hnames, hb⟩ := exists_names_of_findFiles hfiles
  have hnil := hb.nil_notMem hl rfl
  intro entry hentry
  obtain ⟨file, hfile, rfl⟩ := List.mem_map.1 hentry
  have hmem := (List.mem_filter.1 hfile).1
  rw [hnames] at hmem
  obtain ⟨ns, hns, rfl⟩ := List.mem_map.1 hmem
  have hne : ns ≠ [] := fun he => hnil (he ▸ hns)
  rw [relativeEntry_joinAll (hb.root_ne_nil (List.ne_nil_of_mem hns)) hne (hb.isSegment hns)]
  rfl

end Manifest

/-- Entries are the names below the root, under every spelling of it, and each accepted file has
one. Where the names are valid as text they can be read off the entry, which belongs to no other
file and leads from the root to its own. -/
theorem relativeEntry_reversible (root : Path) (hroot : root.bytes ≠ []) :
    (∀ ns : List Name, ns ≠ [] → (∀ n ∈ ns, IsSegment n) →
      ∃ e, root.relativeEntry (root.joinAll ns) = some e ∧
        e = String.intercalate "/" (ns.map decodeLossy) ∧ IsRelative e ∧
        ((∀ n ∈ ns, (decode? n).isSome = true) →
          (entryParts e).map encode = ns ∧
          (root.join (encode e)).components = (root.joinAll ns).components)) ∧
    (∀ ms ns : List Name, ms ≠ [] → ns ≠ [] → (∀ n ∈ ms ++ ns, IsSegment n) →
      (∀ n ∈ ms ++ ns, (decode? n).isSome = true) →
      root.joinAll ms ≠ root.joinAll ns →
      root.relativeEntry (root.joinAll ms) ≠ root.relativeEntry (root.joinAll ns)) ∧
    ∀ (fs : FileSystem) (job : Job) (es : List String), job.root = root →
      (Manifest.collect fs job).result = .ok es →
      ∃ files : List Path,
        findFiles fs root job.followLinks job.respectIgnore = files.map .ok ∧
        es.map some = (files.filter fun f => Manifest.accepts? job.allowed f = some true).map
          root.relativeEntry := by
  refine ⟨?_, ?_, ?_⟩
  · intro ns hne hn
    refine ⟨entryText ns, relativeEntry_joinAll hroot hne hn, rfl, isRelative_entryText hne hn,
      fun hv => ⟨map_encode_entryParts hne hn hv, ?_⟩⟩
    rw [join_encode_entryText hne hn hv]
  · intro ms ns hms hns hn hv hfiles hentries
    obtain ⟨hn₁, hn₂⟩ := List.forall_mem_append.1 hn
    obtain ⟨hv₁, hv₂⟩ := List.forall_mem_append.1 hv
    rw [relativeEntry_joinAll hroot hms hn₁, relativeEntry_joinAll hroot hns hn₂] at hentries
    refine hfiles (congrArg root.joinAll ?_)
    rw [← map_encode_entryParts hms hn₁ hv₁, Option.some.inj hentries,
      map_encode_entryParts hns hn₂ hv₂]
  · intro fs job es hjob h
    subst hjob
    exact Manifest.exists_files_of_collect h

theorem relativeEntry_reversible_spelled :
    let root := Path.ofString "..//a/./"
    let name := encode "..x"
    let broken : Name := [0x2E, 0xFF]
    root.relativeEntry (root.joinAll [name, broken]) = some "..x/.\uFFFD" ∧
    (root.join (encode "..x/b")).components = (root.joinAll [name, encode "b"]).components ∧
    root.relativeEntry (root.joinAll [name, encode "b"]) ≠
      root.relativeEntry (root.joinAll [name]) ∧
    ∃ files : List Path,
      findFiles { tree := besideTree } (.ofString "./.") false false = files.map .ok ∧
      [some "a/x.png", some "a-b.png", some "a.png"] =
        (files.filter fun f => Manifest.accepts? ["png"] f = some true).map
          (Path.ofString "./.").relativeEntry := by
  intro root name broken
  obtain ⟨hentry, hdistinct, -⟩ := relativeEntry_reversible root (by decide)
  refine ⟨?_, ?_, ?_, ?_⟩
  · obtain ⟨e, he, htext, -⟩ := hentry [name, broken] (by simp)
      (isSegment_of_isEntryName (by decide +kernel))
    have hread : String.intercalate "/" ([name, broken].map decodeLossy) = "..x/.\uFFFD" := by
      decide +kernel
    rw [he, htext, hread]
  · obtain ⟨e, -, htext, -, hback⟩ := hentry [name, encode "b"] (by simp)
      (isSegment_of_isEntryName (by decide +kernel))
    have hread : String.intercalate "/" ([name, encode "b"].map decodeLossy) = "..x/b" := by
      decide +kernel
    have hjoin := (hback (by decide +kernel)).2
    rwa [htext, hread] at hjoin
  · exact hdistinct _ _ (by simp) (by simp) (isSegment_of_isEntryName (by decide +kernel))
      (by decide +kernel) (by decide +kernel)
  · exact (relativeEntry_reversible (.ofString "./.") (by decide)).2.2 { tree := besideTree }
      { root := .ofString "./.", allowed := ["png"] } ["a/x.png", "a-b.png", "a.png"] rfl
      (by decide +kernel)

end ResourceManifest
