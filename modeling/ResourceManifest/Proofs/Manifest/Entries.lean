import Mathlib
import ResourceManifest.Manifest
import ResourceManifest.Proofs.Walk.Member

set_option autoImplicit false

namespace ResourceManifest

namespace Manifest

/-- Whether a file that these names lead to has an accepted extension. -/
def accepted (allowed : List String) (ns : List Name) : Bool :=
  ns.getLast?.any fun n => isAllowed (Utf8.decodeLossy n) allowed

theorem accepts?_joinAll {root : Path} (hp : root.bytes ≠ []) (allowed : List String)
    {ns : List Name} (hne : ns ≠ []) (hn : ∀ n ∈ ns, isEntryName n = true) :
    accepts? allowed (root.joinAll ns) = some (accepted allowed ns) := by
  obtain ⟨ms, n, rfl⟩ := (List.eq_nil_or_concat ns).resolve_left hne
  rw [List.concat_eq_append] at hn ⊢
  rw [Path.joinAll_snoc]
  have hf := Path.fileName?_join (Path.joinAll_bytes_ne_nil hp ms) (.of_isEntryName (hn n (by simp)))
  simp [accepts?, hf, accepted]

theorem entries_of_finds {root : Path} (hp : root.bytes ≠ []) (allowed : List String)
    (fault : WalkFault → Failure) (xs : Walk.Finds)
    (hx : ∀ ns, .ok ns ∈ xs → ns ≠ [] ∧ ∀ n ∈ ns, isEntryName n = true) :
    (∃ found : List (List Name), xs = found.map .ok ∧
      (entries root allowed
        (xs.map fun x => (x.map root.joinAll).mapError fault)).result =
          .ok ((found.filter (accepted allowed)).map Path.entryText)) ∨
    ∃ w, .error w ∈ xs ∧
      (entries root allowed
        (xs.map fun x => (x.map root.joinAll).mapError fault)).result = .error (fault w) := by
  induction xs with
  | nil => exact .inl ⟨[], rfl, rfl⟩
  | cons x xs ih =>
    cases x with
    | error w => exact .inr ⟨w, by simp, rfl⟩
    | ok ns =>
      obtain ⟨hne, hn⟩ := hx ns (by simp)
      have ha := accepts?_joinAll hp allowed hne hn
      have hr := Path.relativeEntry_joinAll hp hne (Path.isSegment_of_isEntryName hn)
      rcases ih fun ms hm => hx ms (by simp [hm]) with ⟨found, rfl, h⟩ | ⟨w, hw, h⟩
      · refine .inl ⟨ns :: found, rfl, ?_⟩
        cases hc : accepted allowed ns <;>
          simp_all [entries, Except.map, Except.mapError]
      · refine .inr ⟨w, by simp [hw], ?_⟩
        cases hc : accepted allowed ns <;>
          simp_all [entries, Except.map, Except.mapError]

theorem checkRoot_of_dir {fs : FileSystem} {root : Path} {r : Location} {d : Node}
    (h : fs.look .follow root = .ok (r, d)) (hd : d.isDir = true) :
    checkRoot fs root = .ok () := by
  simp [checkRoot, FileSystem.stat_eq_ok_iff.2 ⟨r, h⟩, hd]

theorem collect_plain {fs : FileSystem} {job : Job} (hig : job.respectIgnore = false)
    {r : Location} {d : Node} (h : fs.look .follow job.root = .ok (r, d)) (hd : d.isDir = true) :
    (∃ found : List (List Name),
      Walk.found fs job.followLinks Guard.open (pathLimit + 1) [] () job.root = found.map .ok ∧
      (collect fs job).result =
        .ok ((found.filter (accepted job.allowed)).map Path.entryText)) ∨
    ∃ w, .error w ∈ Walk.found fs job.followLinks Guard.open (pathLimit + 1) [] () job.root ∧
      (collect fs job).result = .error (.walk job.root w) := by
  have hp := (FileSystem.look_follow_eq_ok_iff.1 h).1.bytes_ne_nil
  have he := entries_of_finds hp job.allowed (.walk job.root)
    (Walk.found fs job.followLinks Guard.open (pathLimit + 1) [] () job.root)
    fun ns hx => Walk.ok_mem_found h hd hx
  simpa [collect, checkRoot_of_dir h hd, findFiles, hig, Walk.files_of_dir h hd,
    Function.comp_def] using he

end Manifest

end ResourceManifest
