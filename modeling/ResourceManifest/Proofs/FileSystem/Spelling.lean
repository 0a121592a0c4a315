import ResourceManifest.Proofs.FileSystem.Alike
import ResourceManifest.Proofs.FileSystem.Reaches

set_option autoImplicit false

namespace ResourceManifest

theorem Path.isAbsolute_joinAll {p : Path} (hp : p.bytes ≠ []) (ns : List Name) :
    (p.joinAll ns).isAbsolute = p.isAbsolute := by
  induction ns generalizing p with
  | nil => rfl
  | cons n ns ih => rw [joinAll_cons, ih (join_bytes_ne_nil hp), isAbsolute_join n hp]

namespace FileSystem

/-- The path is a spelling of a location: it leads there over no link. -/
structure Spells (fs : FileSystem) (p : Path) (l : Location) : Prop where
  nul : 0 ∉ p.bytes
  nonempty : p.bytes ≠ []
  short : p.bytes.length < pathLimit
  leads : Leads fs.tree 0 (fs.start p) p.steps l

namespace Spells

variable {fs : FileSystem} {p p' : Path} {r l : Location} {ns : List Name}

theorem reaches (h : fs.Spells p r) : fs.Reaches p r :=
  ⟨h.nul, h.nonempty, h.short, 0, Nat.zero_le _, h.leads⟩

theorem leads_names (h : fs.Spells p r) : Leads fs.tree 0 (fs.start p) p.names r := by
  have hl := h.leads
  rcases p.steps_eq with hs | hs
  · rwa [hs] at hl
  · rw [hs] at hl
    exact hl.of_slash_end

theorem reaches_joinAll_join_iff (h : fs.Spells p r) (hns : ∀ n ∈ ns, isEntryName n = true)
    {x : Bytes} (hne : x ≠ []) (hend : x.getLast? ≠ some Path.slash) (hnul : 0 ∉ x) :
    fs.Reaches ((p.joinAll ns).join x) l ↔
      ((p.joinAll ns).join x).bytes.length < pathLimit ∧
        ∃ k, k ≤ linkLimit ∧ Leads fs.tree k r (ns ++ (⟨x⟩ : Path).names) l := by
  have hall := Path.joinAll_bytes_ne_nil h.nonempty ns
  have hstart : fs.start ((p.joinAll ns).join x) = fs.start p := by
    rw [start, start, Path.isAbsolute_join x hall, Path.isAbsolute_joinAll h.nonempty]
  have hsteps : ((p.joinAll ns).join x).steps = p.names ++ (ns ++ (⟨x⟩ : Path).names) := by
    rw [Path.steps_of_getLast? (by rwa [Path.getLast?_join hne]), Path.names_join_path hall,
      Path.names_joinAll h.nonempty hns, List.append_assoc]
  constructor
  · rintro ⟨-, -, hlen, k, hk, hl⟩
    rw [hstart, hsteps] at hl
    obtain ⟨m, i, j, hi, hj, hij⟩ := hl.split rfl
    obtain ⟨rfl, rfl⟩ := h.leads_names.deterministic hi
    exact ⟨hlen, j, by omega, hj⟩
  · rintro ⟨hlen, k, hk, hl⟩
    refine ⟨Path.nul_notMem_join (Path.nul_notMem_joinAll h.nul hns) hnul,
      Path.join_bytes_ne_nil hall, hlen, k, hk, ?_⟩
    rw [hstart, hsteps]
    simpa using h.leads_names.append hl

theorem look_join (h : fs.Spells p r) (h' : fs.Spells p' r) (hns : ∀ n ∈ ns, isEntryName n = true)
    {x : Bytes} (hne : x ≠ []) (hend : x.getLast? ≠ some Path.slash) (hnul : 0 ∉ x)
    (hlen : ((p.joinAll ns).join x).bytes.length < pathLimit)
    (hlen' : ((p'.joinAll ns).join x).bytes.length < pathLimit) :
    SameSuccess (fs.look .follow ((p.joinAll ns).join x))
      (fs.look .follow ((p'.joinAll ns).join x)) := by
  rintro ⟨l, d⟩
  rw [look_follow_eq_ok_iff, look_follow_eq_ok_iff, h.reaches_joinAll_join_iff hns hne hend hnul,
    h'.reaches_joinAll_join_iff hns hne hend hnul]
  simp only [hlen, hlen', true_and]

end Spells

end FileSystem

end ResourceManifest
