import ResourceManifest.Proofs.Manifest.Selected

/-!
The extension of a name that is no text. Whatever stands for its broken parts, a dot of the name is
a dot of the text and the other way round, and only the bytes of an extension are read as that
extension. The entry of a file tells of the same name.
-/

set_option autoImplicit false

namespace ResourceManifest

open ResourceManifest.Path ResourceManifest.Utf8

variable {fs : FileSystem} {root file : Path} {job : Job} {allowed es : List String} {n : Name}
  {e x : String} {followLinks respectIgnore : Bool}

theorem splitLast_decodeLossy (n : Name) : splitLast '.' (decodeLossy n).toList =
    (splitLast dot n).map fun (s, e) => ((decodeLossy s).toList, (decodeLossy e).toList) := by
  have hnone : ∀ {m : Name}, dot ∉ m → '.' ∉ (decodeLossy m).toList := fun hm hc =>
    hm (utf8EncodeChar_subset_of_mem_decodeLossy hc (by decide) (by decide))
  cases hn : splitLast dot n with
  | none => exact splitLast_eq_none_iff.2 (hnone (splitLast_eq_none_iff.1 hn))
  | some parts =>
    obtain ⟨s, e⟩ := parts
    obtain ⟨rfl, he⟩ := splitLast_eq_some_iff.1 hn
    refine splitLast_eq_some_iff.2 ⟨?_, hnone he⟩
    rw [decodeLossy_append_ascii (by decide)]
    simp [dot]

theorem decodeLossy_eq_empty_iff : decodeLossy n = "" ↔ n = [] := by
  refine ⟨fun h => Decidable.not_not.1 fun hne => decodeLossy_ne_empty hne h, ?_⟩
  rintro rfl
  simp [decodeLossy, Utf8.read]

theorem extension?_decodeLossy_eq_some_iff : extension? (decodeLossy n) = some x ↔
    ∃ s e, n = s ++ dot :: e ∧ s ≠ [] ∧ e ≠ [] ∧ dot ∉ e ∧ x = decodeLossy e := by
  rw [extension?_eq_some_iff]
  constructor
  · intro h
    obtain ⟨stem, hstem, hx, hdot, hname⟩ := h
    have hcut : splitLast '.' (decodeLossy n).toList = some (stem.toList, x.toList) :=
      splitLast_eq_some_iff.2 ⟨by simp [hname], hdot⟩
    rw [splitLast_decodeLossy] at hcut
    obtain ⟨⟨s, e⟩, hn, hparts⟩ := Option.map_eq_some_iff.1 hcut
    obtain ⟨hs, he⟩ := Prod.mk.inj hparts
    obtain rfl := String.toList_injective hs
    obtain rfl := String.toList_injective he
    obtain ⟨rfl, hdot'⟩ := splitLast_eq_some_iff.1 hn
    exact ⟨s, e, rfl, mt decodeLossy_eq_empty_iff.2 hstem, mt decodeLossy_eq_empty_iff.2 hx, hdot',
      rfl⟩
  · intro h
    obtain ⟨s, e, rfl, hs, he, hdot, rfl⟩ := h
    have hcut := splitLast_decodeLossy (s ++ dot :: e)
    rw [splitLast_append_cons hdot] at hcut
    obtain ⟨hname, hdot'⟩ := splitLast_eq_some_iff.1 hcut
    refine ⟨decodeLossy s, decodeLossy_ne_empty hs, decodeLossy_ne_empty he, hdot', ?_⟩
    exact String.toList_injective (by simp [hname])

theorem isAllowed_decodeLossy_iff (h : ∀ x ∈ allowed, '\uFFFD' ∉ x.toList) :
    isAllowed (decodeLossy n) allowed = true ↔
      ∃ s e, n = s ++ dot :: e ∧ s ≠ [] ∧ e ≠ [] ∧ dot ∉ e ∧ ∃ x ∈ allowed, e = encode x := by
  rw [isAllowed_iff_extension?]
  constructor
  · intro hx
    obtain ⟨x, hx, hmem⟩ := hx
    obtain ⟨s, e, hn, hs, he, hdot, hread⟩ := extension?_decodeLossy_eq_some_iff.1 hx
    exact ⟨s, e, hn, hs, he, hdot, x, hmem, eq_encode_of_decodeLossy hread.symm (h x hmem)⟩
  · intro hx
    obtain ⟨s, e, hn, hs, he, hdot, x, hmem, rfl⟩ := hx
    exact ⟨x, extension?_decodeLossy_eq_some_iff.2 ⟨s, encode x, hn, hs, he, hdot,
      (decodeLossy_encode x).symm⟩, hmem⟩

namespace Manifest

theorem lastPart_of_mem_findFiles (h : .ok file ∈ findFiles fs root followLinks respectIgnore)
    (he : root.relativeEntry file = some e) :
    ∃ n, file.fileName? = some n ∧ lastPart e = decodeLossy n := by
  obtain ⟨names, hnames, hb⟩ := exists_foundFiles_eq fs root followLinks respectIgnore
  have hfile : file ∈ foundFiles fs root followLinks respectIgnore :=
    List.mem_filterMap.2 ⟨.ok file, h, rfl⟩
  rw [hnames] at hfile
  obtain ⟨ns, hns, rfl⟩ := List.mem_map.1 hfile
  have hbelow := hb.namesBelow hns
  have hroot := hb.root_ne_nil (List.ne_nil_of_mem hns)
  rcases List.eq_nil_or_concat ns with rfl | ⟨ms, n, hcat⟩
  · rw [relativeEntry, hbelow] at he
    cases he
  · rw [List.concat_eq_append] at hcat
    subst hcat
    have hn := hb.isSegment hns n (by simp)
    rw [relativeEntry_joinAll hroot (by simp) (hb.isSegment hns)] at he
    obtain rfl := Option.some.inj he
    refine ⟨n, ?_, lastPart_entryText_snoc hn.noSlash ms⟩
    rw [joinAll_snoc]
    exact fileName?_join (joinAll_bytes_ne_nil hroot ms) hn

theorem isAllowed_lastPart_of_collect (h : (collect fs job).result = .ok es) (he : e ∈ es) :
    isAllowed (lastPart e) job.allowed = true := by
  rcases collect_cases fs job with ⟨f, hf⟩ | ⟨names, hb, hnil, -, hc⟩
  · cases h.symm.trans (hf job.allowed)
  · obtain rfl := Except.ok.inj (h.symm.trans (hc job.allowed))
    obtain ⟨ns, hns, rfl⟩ := List.mem_map.1 he
    obtain ⟨hmem, hacc⟩ := List.mem_filter.1 hns
    rwa [← accepted_eq job.allowed (fun hne => hnil (hne ▸ hmem))
      fun n hn => (hb.isSegment hmem n hn).noSlash]

end Manifest

/-- A name is accepted, as the text that it is read as, exactly if it consists of some bytes, a dot
and the bytes of an accepted extension without a dot, provided that no accepted extension has the
character that stands for broken parts. And the text behind the last slash of an entry is accepted
exactly if the file is. -/
theorem accepts_decoded (allowed : List String) :
    ((∀ x ∈ allowed, '\uFFFD' ∉ x.toList) → ∀ n : Name,
      (isAllowed (decodeLossy n) allowed = true ↔
        ∃ s e, n = s ++ dot :: e ∧ s ≠ [] ∧ e ≠ [] ∧ dot ∉ e ∧ ∃ x ∈ allowed, e = encode x)) ∧
    (∀ fs root followLinks respectIgnore file e,
      .ok file ∈ findFiles fs root followLinks respectIgnore →
      root.relativeEntry file = some e →
      Manifest.accepts? allowed file = some (isAllowed (lastPart e) allowed)) ∧
    ∀ fs job es, job.allowed = allowed → (Manifest.collect fs job).result = .ok es →
      ∀ e ∈ es, isAllowed (lastPart e) allowed = true := by
  refine ⟨fun h n => isAllowed_decodeLossy_iff h, ?_, ?_⟩
  · intro fs root followLinks respectIgnore file e hfile he
    obtain ⟨n, hn, hlast⟩ := Manifest.lastPart_of_mem_findFiles hfile he
    simp [Manifest.accepts?, hn, hlast]
  · rintro fs job es rfl hc e he
    exact Manifest.isAllowed_lastPart_of_collect hc he

/-- A name with a part of a character before its dot, in a directory whose name is no text, beside
a name with such a part behind its extension. -/
def brokenNamesTree : FileTree :=
  let d : Name := [0xFF]
  ((FileTree.empty.put [d] (.dir 0o755)).put [[0xE2, 0x82, 0x2E, 0x70, 0x6E, 0x67], d]
    (.file 0o644 [])).put [[0x78, 0x2E, 0x70, 0x6E, 0x67, 0xE2, 0x82]] (.file 0o644 [])

theorem accepts_decoded_broken :
    let fs : FileSystem := { tree := brokenNamesTree }
    let root : Path := ⟨[dot]⟩
    let name : Name := [0xE2, 0x82, 0x2E, 0x70, 0x6E, 0x67]
    let file := root.joinAll [[0xFF], name]
    let job : Job := { root, allowed := ["png"] }
    (Manifest.collect fs job).result = .ok ["\uFFFD/\uFFFD.png"] ∧
    isAllowed (decodeLossy name) ["png"] = true ∧
    Manifest.accepts? ["png"] file = some (isAllowed (lastPart "\uFFFD/\uFFFD.png") ["png"]) ∧
    (∀ e ∈ ["\uFFFD/\uFFFD.png"], isAllowed (lastPart e) ["png"] = true) ∧
    isAllowed (decodeLossy [0x78, 0x2E, 0x70, 0x6E, 0x67, 0xE2, 0x82]) ["png"] = false := by
  intro fs root name file job
  have hc : (Manifest.collect fs job).result = .ok ["\uFFFD/\uFFFD.png"] := by decide +kernel
  obtain ⟨hname, hfile, hlisted⟩ := accepts_decoded ["png"]
  refine ⟨hc, ?_, ?_, hlisted fs job _ rfl hc, by decide +kernel⟩
  · exact (hname (by decide) name).2 ⟨[0xE2, 0x82], [0x70, 0x6E, 0x67], rfl, by decide, by decide,
      by decide, "png", by decide, by decide⟩
  · exact hfile fs root false false file _ (by decide +kernel) (by decide +kernel)

end ResourceManifest
