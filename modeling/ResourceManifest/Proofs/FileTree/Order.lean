import ResourceManifest.Proofs.FileTree.Entries

set_option autoImplicit false

namespace ResourceManifest

theorem pairwise_insertName {n : Name} {ns : List Name} (h : ns.Pairwise (· ≤ ·)) :
    (insertName n ns).Pairwise (· ≤ ·) := by
  induction ns with
  | nil => exact List.pairwise_singleton _ _
  | cons a ns ih =>
    obtain ⟨ha, hns⟩ := List.pairwise_cons.1 h
    unfold insertName
    split
    · next hn =>
      refine List.pairwise_cons.2 ⟨fun m hm => ?_, h⟩
      rcases List.mem_cons.1 hm with rfl | hm
      · exact hn
      · exact List.le_trans hn (ha m hm)
    · next hn =>
      refine List.pairwise_cons.2 ⟨fun m hm => ?_, ih hns⟩
      rcases mem_insertName.1 hm with rfl | hm
      · exact (List.le_total m a).resolve_left hn
      · exact ha m hm

theorem pairwise_sortNames (ns : List Name) : (sortNames ns).Pairwise (· ≤ ·) := by
  induction ns with
  | nil => exact .nil
  | cons n ns ih => exact pairwise_insertName ih

theorem length_insertName (n : Name) (ns : List Name) :
    (insertName n ns).length = ns.length + 1 := by
  induction ns with
  | nil => rfl
  | cons a ns ih =>
    unfold insertName
    split
    · rfl
    · rw [List.length_cons, ih, List.length_cons]

theorem length_sortNames (ns : List Name) : (sortNames ns).length = ns.length := by
  induction ns with
  | nil => rfl
  | cons n ns ih =>
    rw [sortNames, List.foldr_cons, length_insertName, ← sortNames, ih, List.length_cons]

namespace FileTree

theorem names_pairwise (t : FileTree) (l : Location) : (t.names l).Pairwise (· ≤ ·) :=
  pairwise_sortNames _

theorem names_strictly_pairwise (t : FileTree) (l : Location) :
    (t.names l).Pairwise (· < ·) := by
  refine ((t.names_pairwise l).and (t.names_nodup l)).imp ?_
  intro m n hmn
  exact Std.lt_of_le_of_ne hmn.1 hmn.2

theorem names_eq_of_mem_iff {t t' : FileTree} {l l' : Location}
    (h : ∀ n, n ∈ t.names l ↔ n ∈ t'.names l') : t.names l = t'.names l' := by
  have hperm := (List.perm_ext_iff_of_nodup (t.names_nodup l) (t'.names_nodup l')).2 h
  exact hperm.eq_of_pairwise (fun _ _ _ _ => List.le_antisymm) (t.names_pairwise l)
    (t'.names_pairwise l')

theorem length_names_le (t : FileTree) (l : Location) : (t.names l).length ≤ t.nodes.length := by
  rw [names, length_sortNames]
  exact List.length_filterMap_le _ _

end FileTree

end ResourceManifest
