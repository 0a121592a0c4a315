import Mathlib.Data.List.Infix
import ResourceManifest.Proofs.Walk.Visit

/-!
How deep a walk can get. A directory entered over a link is none of those around it, so that there
are no more of them than directories; between two of them a walk only goes down. The bound has
nothing to do with the limit on the length of paths.
-/

set_option autoImplicit false

namespace ResourceManifest

namespace FileTree

variable {t : FileTree}

theorem length_lt_directories {l : Location} (h : t.isDir l = true) :
    l.length < t.directories.length := by
  have hnodup : l.tails.Nodup := by
    clear h
    induction l with
    | nil => simp
    | cons n l ih =>
      rw [List.tails_cons, List.nodup_cons]
      refine ⟨fun hm => ?_, ih⟩
      have hle := ((List.mem_tails _ _).1 hm).length_le
      simp only [List.length_cons] at hle
      omega
  have hsub : l.tails ⊆ t.directories := by
    intro m hm
    exact mem_directories_iff.2 (isDir_of_suffix h ((List.mem_tails _ _).1 hm))
  have hle := hnodup.length_le_of_subset hsub
  simp only [List.length_tails] at hle
  omega

end FileTree

namespace Walk

variable {σ : Type} {fs : FileSystem} {followLinks : Bool} {guard : Guard σ} {s : σ} {root : Path}

/-- The directories of a way that were entered over a link. -/
def linked (c : List (Visit σ)) : List (Visit σ) := c.filter (·.viaLink)

namespace Visited

variable {v : Visit σ} {up : List (Visit σ)}

theorem isDir_of_mem (h : Visited fs followLinks guard s root v up) {w : Visit σ}
    (hw : w ∈ v :: up) : fs.tree.isDir w.location = true := by
  induction h with
  | @root r d top hr hd hk =>
    have hv : Visited fs followLinks guard s root _ _ := .root hr hd hk
    obtain rfl := List.mem_singleton.1 hw
    exact hv.reaches.2
  | entry hv hg hk hs hl ih =>
    rcases List.mem_cons.1 hw with rfl | hw
    · exact (Visited.entry hv hg hk hs hl).reaches.2
    · exact ih hw

theorem distinct (h : Visited fs followLinks guard s root v up) :
    (v :: up).Pairwise fun v w => v.viaLink = true → v.location ≠ w.location := by
  induction h with
  | root _ _ _ => exact List.pairwise_singleton _ _
  | @entry v up name n d l hv hg hk hs hl ih =>
    refine List.pairwise_cons.2 ⟨?_, ih⟩
    intro w hw hn
    rcases plainKind_eq_directory_iff.1 (kind_eq_directory_iff.1 hk).1 with
      hd | ⟨-, -, l', d', hl', -, hne⟩
    · cases n with
      | link target => simp [Node.isDir] at hd
      | _ => simp [Node.isLink] at hn
    · cases hl.symm.trans hl'
      have hw' := hne _ (List.mem_map.2 ⟨w, hw, rfl⟩)
      exact Ne.symm hw'

theorem length_linked_le (h : Visited fs followLinks guard s root v up) :
    (linked (v :: up)).length ≤ fs.tree.directories.length := by
  have hd : (linked (v :: up)).Pairwise fun v w => v.location ≠ w.location := by
    refine List.Pairwise.imp_of_mem ?_ (h.distinct.filter _)
    intro v w hv _ hvw
    exact hvw (List.mem_filter.1 hv).2
  have hnodup : ((linked (v :: up)).map (·.location)).Nodup := List.pairwise_map.2 hd
  have hsub : (linked (v :: up)).map (·.location) ⊆ fs.tree.directories := by
    intro l hl
    obtain ⟨w, hw, rfl⟩ := List.mem_map.1 hl
    exact FileTree.mem_directories_iff.2 (h.isDir_of_mem (List.mem_filter.1 hw).1)
  have hle := hnodup.length_le_of_subset hsub
  rwa [List.length_map] at hle

theorem length_le (h : Visited fs followLinks guard s root v up) : (v :: up).length ≤
    (linked (v :: up)).length * fs.tree.directories.length + v.location.length + 1 := by
  induction h with
  | root _ _ _ =>
    simp only [List.length_singleton]
    omega
  | @entry v up name n d l hv hg hk hs hl ih =>
    have hlt := FileTree.length_lt_directories hv.reaches.2
    cases hn : n.isLink with
    | true =>
      -- The depth starts anew behind a link, which is one more to count.
      simp only [linked, List.filter_cons, if_true, List.length_cons, Nat.succ_mul] at ih ⊢
      omega
    | false =>
      obtain rfl := (isDir_of_kind hv.reaches.1 hg hk hl).2 hn
      simp only [linked, List.filter_cons, List.length_cons, Bool.false_eq_true, if_false] at ih ⊢
      omega

theorem length_le_directories (h : Visited fs followLinks guard s root v up) :
    (v :: up).length ≤ (fs.tree.directories.length + 1) * fs.tree.directories.length := by
  have hle := h.length_le
  have hlt := FileTree.length_lt_directories h.reaches.2
  have hmul := Nat.mul_le_mul_right fs.tree.directories.length h.length_linked_le
  rw [Nat.succ_mul]
  omega

end Visited

end Walk

end ResourceManifest
