import ResourceManifest.Proofs.Ignore.Decision
import ResourceManifest.Proofs.Ignore.Silent

set_option autoImplicit false

namespace ResourceManifest

variable {fs : FileSystem}

def ReadsAlike (fs : FileSystem) (dir dir' : Path) : Prop :=
  ∀ k, SameSuccess (fs.contents (IgnoreKind.file dir k)) (fs.contents (IgnoreKind.file dir' k))

theorem ReadsAlike.endless?_eq_none_iff {dir dir' : Path} (h : ReadsAlike fs dir dir') :
    IgnoreKind.endless? fs dir = none ↔ IgnoreKind.endless? fs dir' = none := by
  rw [IgnoreKind.endless?_eq_none_iff, IgnoreKind.endless?_eq_none_iff]
  exact forall_congr' fun k => not_congr (h k none)

/-- The ignore files of the root, which is at `r`, and of the directories on the way that the names
lead are read alike over the root's path and over their real paths. -/
def ReadAlong (fs : FileSystem) (root : Path) (r : Location) (ds : List Name) : Prop :=
  ∀ ns, ns <+: ds → ns ≠ ds →
    ReadsAlike fs (root.joinAll ns) (Location.path (ns.reverse ++ r))

theorem ReadAlong.tail {root : Path} {r : Location} {d : Name} {ds : List Name}
    (h : ReadAlong fs root r (d :: ds)) : ReadAlong fs (root.join d) (d :: r) ds := by
  intro ns hns hne
  have hd := h (d :: ns) (List.cons_prefix_cons.2 ⟨rfl, hns⟩) (by simpa using hne)
  simpa using hd

section Unlinked

variable {p p' : Path} {l m : Location}

def Unlinked (t : FileTree) (l : Location) : Prop :=
  ∀ (k : IgnoreKind) i m, Leads t i l k.path.names m → i = 0

theorem unlinked_of_no_links {t : FileTree} (h : ∀ e ∈ t.nodes, e.2.isLink = false)
    (l : Location) : Unlinked t l := by
  intro k i m hl
  generalize k.path.names = steps at hl
  induction hl with
  | done => rfl
  | stay _ _ _ ih => exact ih
  | up _ _ ih => exact ih
  | entry _ _ _ ih => exact ih
  | link hg _ _ => cases h _ (FileTree.get?_cons_eq_some_iff.1 hg)

theorem IgnoreKind.path_bytes (k : IgnoreKind) :
    k.path.bytes ≠ [] ∧ k.path.bytes.getLast? ≠ some Path.slash ∧ 0 ∉ k.path.bytes := by
  cases k <;> exact ⟨by decide +kernel, by decide +kernel, by decide +kernel⟩

theorem reaches_file_iff (h : fs.Reaches p l) (hun : Unlinked fs.tree l) {k : IgnoreKind}
    (hlen : (IgnoreKind.file p k).bytes.length < pathLimit) :
    fs.Reaches (IgnoreKind.file p k) m ↔ Leads fs.tree 0 l k.path.names m := by
  obtain ⟨hne, hslash, hnul⟩ := k.path_bytes
  obtain ⟨i, hi, hl⟩ := h.leads_names
  rw [k.file_eq_join] at hlen ⊢
  have hsteps : (p.join k.path.bytes).steps = p.names ++ k.path.names := by
    rw [Path.steps_of_getLast? (by rwa [Path.getLast?_join hne]),
      Path.names_join_path h.bytes_ne_nil]
  constructor
  · rintro ⟨-, -, -, j, -, hj⟩
    rw [h.start_join, hsteps] at hj
    obtain ⟨l', _, b, hl', hb, -⟩ := hj.split rfl
    obtain rfl := (hl.deterministic hl').1
    obtain rfl : b = 0 := hun k b m hb
    exact hb
  · intro hm
    refine ⟨Path.nul_notMem_join h.1 hnul, Path.join_bytes_ne_nil h.bytes_ne_nil, hlen, i, hi, ?_⟩
    rw [h.start_join, hsteps]
    exact hl.append hm

theorem readsAlike_of_unlinked (h : fs.Reaches p l) (h' : fs.Reaches p' l)
    (hun : Unlinked fs.tree l)
    (hlen : ∀ k, (IgnoreKind.file p k).bytes.length < pathLimit)
    (hlen' : ∀ k, (IgnoreKind.file p' k).bytes.length < pathLimit) : ReadsAlike fs p p' := by
  intro k
  refine FileSystem.contents_of_sameSuccess fun x => ?_
  rw [FileSystem.look_follow_eq_ok_iff, FileSystem.look_follow_eq_ok_iff,
    reaches_file_iff h hun (hlen k), reaches_file_iff h' hun (hlen' k)]

end Unlinked

namespace IgnoreSource

theorem verdict?_of_readsAlike {dir dir' : Path} (h : ReadsAlike fs dir dir') (k : IgnoreKind)
    (isDir : Bool) (below : List Name) :
    verdict? fs k isDir ⟨dir, below⟩ = verdict? fs k isDir ⟨dir', below⟩ := by
  have hrules : (RuleFile.load fs dir (k.file dir)).1.rules =
      (RuleFile.load fs dir' (k.file dir')).1.rules := by
    rw [RuleFile.load_rules, RuleFile.load_rules, RuleFile.rulesOf_congr (h k)]
  simp only [verdict?, hrules]

theorem walked_cons (root : Path) (d : Name) (ns : List Name) :
    walked root (d :: ns) = walked (root.join d) ns ++ [⟨root, d :: ns⟩] := by
  simp [walked, List.range_succ_eq_map, Function.comp_def]

end IgnoreSource

variable {root : Path} {r : Location} {isDir : Bool} {ds ns : List Name}

/-- To the walk that begins one directory farther down, the root's own files are files around, if it
is told the real path of that directory. -/
theorem decision?_cons {d : Name} (h : ReadsAlike fs root (Location.path r))
    (hlen : (Location.path (d :: r)).bytes.length < pathLimit) :
    decision? fs root r isDir (d :: ns) = decision? fs (root.join d) (d :: r) isDir ns := by
  have hshort : (Location.path r).bytes.length < pathLimit :=
    Nat.lt_of_le_of_lt (Location.length_path_append_le [d] r) hlen
  have hkinds : (IgnoreKind.all.findSome? fun k =>
      (IgnoreSource.walked root (d :: ns) ++ IgnoreSource.known r (d :: ns)).findSome?
        (IgnoreSource.verdict? fs k isDir)) =
      IgnoreKind.all.findSome? fun k =>
        (IgnoreSource.walked (root.join d) ns ++ IgnoreSource.known (d :: r) ns).findSome?
          (IgnoreSource.verdict? fs k isDir) := by
    refine findSome?_eq_of_mem fun k _ => ?_
    rw [IgnoreSource.known, IgnoreSource.known, if_pos hshort, if_pos hlen,
      IgnoreSource.walked_cons, IgnoreSource.around, List.append_assoc, List.singleton_append,
      List.findSome?_append, List.findSome?_append, List.findSome?_cons, List.findSome?_cons,
      IgnoreSource.verdict?_of_readsAlike h]
  rw [decision?, decision?, hkinds, Path.joinAll_cons]

theorem isSkipped_append (h : ReadAlong fs root r ds)
    (hlen : ds ≠ [] → (Location.path (ds.reverse ++ r)).bytes.length < pathLimit) (hne : ns ≠ []) :
    isSkipped fs root r isDir (ds ++ ns) =
      isSkipped fs (root.joinAll ds) (ds.reverse ++ r) isDir ns := by
  induction ds generalizing root r with
  | nil => rfl
  | cons d ds ih =>
    have hfirst : ReadsAlike fs root (Location.path r) := h [] List.nil_prefix (by simp)
    have hlast : (d :: (ds ++ ns)).getLast? = (ds ++ ns).getLast? := by
      obtain ⟨m, ms, hm⟩ := List.exists_cons_of_ne_nil (List.append_ne_nil_of_right_ne_nil ds hne)
      rw [hm, List.getLast?_cons_cons]
    have hlen' : (Location.path (ds.reverse ++ d :: r)).bytes.length < pathLimit := by
      simpa using hlen (List.cons_ne_nil d ds)
    have hd : (Location.path (d :: r)).bytes.length < pathLimit :=
      Nat.lt_of_le_of_lt (Location.length_path_append_le ds.reverse (d :: r)) hlen'
    have hi := ih h.tail fun _ => hlen'
    simp only [isSkipped] at hi ⊢
    rw [List.cons_append, decision?_cons hfirst hd, hlast, hi]
    simp

end ResourceManifest
