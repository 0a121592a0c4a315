import ResourceManifest.Proofs.FileTree.Entries

set_option autoImplicit false

namespace ResourceManifest.FileTree

variable {t : FileTree} {l l' : Location} {m n : Node}

theorem eq_of_nodes {t' : FileTree} (h : t.nodes = t'.nodes) : t = t' := by
  cases t
  cases t'
  cases h
  rfl

/-- A place for a file: names that entries may have, in a directory, and no directory itself. -/
structure IsPlace (t : FileTree) (l : Location) : Prop where
  ne_nil : l ≠ []
  named : l.all isEntryName = true
  inside : t.isDir l.tail = true
  free : t.isDir l = false

theorem isPlace_cons {name : Name} (hl : t.isDir l = true) (hn : isEntryName name = true)
    (hf : t.isDir (name :: l) = false) : t.IsPlace (name :: l) where
  ne_nil := List.cons_ne_nil name l
  named := by
    rw [List.all_cons, hn, Bool.true_and, List.all_eq_true]
    exact isEntryName_of_isDir hl
  inside := hl
  free := hf

theorem isEmptyAt_of_isDir (h : t.isDir l = false) : t.isEmptyAt l = true := by
  refine List.all_eq_true.2 fun e he => bne_iff_ne.2 fun htail => ?_
  rcases t.rooted e he with hnil | ⟨mode, hm⟩
  · rw [← htail, hnil, isDir_nil] at h
    cases h
  · rw [htail] at hm
    cases l with
    | nil => simp at h
    | cons a l =>
      rw [isDir_iff.2 ⟨mode, get?_cons_eq_some_iff.2 hm⟩] at h
      cases h

theorem IsPlace.eq_of_suffix (h : t.IsPlace l) (hg : t.get? l' = some n) (hs : l <:+ l') :
    l' = l := by
  cases l' with
  | nil => exact absurd (List.suffix_nil.1 hs) h.ne_nil
  | cons a l' =>
    rcases List.suffix_cons_iff.1 hs with hl | hs
    · exact hl.symm
    · have hd := isDir_of_suffix (isDir_of_get?_cons hg) hs
      rw [h.free] at hd
      cases hd

section Put

variable (h : t.IsPlace l)
include h

theorem IsPlace.nodes_put (n : Node) :
    (t.put l n).nodes = (l, n) :: t.nodes.filter (·.1 != l) := by
  have hp : (l ≠ [] ∧ l.all isEntryName = true) ∧
      t.isDir l.tail = true ∧ (n.isDir = true ∨ t.isEmptyAt l = true) :=
    ⟨⟨h.ne_nil, h.named⟩, h.inside, .inr (isEmptyAt_of_isDir h.free)⟩
  rw [put, dif_pos hp]

theorem IsPlace.get?_put_self (n : Node) : (t.put l n).get? l = some n := by
  have hne := h.ne_nil
  cases l with
  | nil => exact absurd rfl hne
  | cons a l =>
    rw [get?_cons_eq_some_iff, h.nodes_put]
    exact List.mem_cons_self

theorem IsPlace.get?_put_of_ne (n : Node) (hne : l' ≠ l) : (t.put l n).get? l' = t.get? l' := by
  cases l' with
  | nil => rw [get?_nil, get?_nil]
  | cons a l' =>
    refine Option.ext fun d => ?_
    rw [get?_cons_eq_some_iff, get?_cons_eq_some_iff, h.nodes_put]
    simp [hne]

theorem IsPlace.isDir_put (hn : n.isDir = false) : (t.put l n).isDir l' = t.isDir l' := by
  by_cases hl : l' = l
  · rw [hl, h.free, isDir_of_get? (h.get?_put_self n), hn]
  · rw [isDir, isDir, h.get?_put_of_ne n hl]

theorem IsPlace.put (hn : n.isDir = false) (h' : t.IsPlace l') : (t.put l n).IsPlace l' where
  ne_nil := h'.ne_nil
  named := h'.named
  inside := by rw [h.isDir_put hn, h'.inside]
  free := by rw [h.isDir_put hn, h'.free]

theorem IsPlace.put_put (n : Node) (hm : m.isDir = false) :
    (t.put l m).put l n = t.put l n := by
  refine eq_of_nodes ?_
  rw [(h.put hm h).nodes_put, h.nodes_put, h.nodes_put]
  simp

theorem IsPlace.erase_put (hg : t.get? l = none) (n : Node) : (t.put l n).erase l = t := by
  have hout : ∀ e ∈ t.nodes, ¬ l <:+ e.1 := by
    intro e he hs
    obtain ⟨l', d⟩ := e
    have hl' := (t.named _ he).1
    cases l' with
    | nil => exact hl' rfl
    | cons a l' =>
      have hd := get?_cons_eq_some_iff.2 he
      rw [h.eq_of_suffix hd hs, hg] at hd
      cases hd
  have hne : ∀ e ∈ t.nodes, (e.1 != l) = true :=
    fun e he => bne_iff_ne.2 fun hl => hout e he (hl ▸ List.suffix_refl l)
  have hkeep : ∀ e ∈ t.nodes, (!l.isSuffixOf e.1) = true := by
    intro e he
    rw [Bool.not_eq_true', Bool.eq_false_iff, ne_eq, List.isSuffixOf_iff_suffix]
    exact hout e he
  refine eq_of_nodes ?_
  have herase : ((t.put l n).erase l).nodes =
      (t.put l n).nodes.filter fun e => !l.isSuffixOf e.1 := rfl
  have hself : l.isSuffixOf l = true := List.isSuffixOf_iff_suffix.2 (List.suffix_refl l)
  rw [herase, h.nodes_put, List.filter_eq_self.2 hne, List.filter_cons]
  simp only [hself, Bool.not_true, Bool.false_eq_true, if_false]
  exact List.filter_eq_self.2 hkeep

end Put

theorem IsPlace.get?_erase_of_ne (h : t.IsPlace l) (hne : l' ≠ l) :
    (t.erase l).get? l' = t.get? l' := by
  cases l' with
  | nil => rw [get?_nil, get?_nil]
  | cons a l' =>
    refine Option.ext fun d => ?_
    rw [get?_cons_eq_some_iff, get?_cons_eq_some_iff]
    refine ⟨fun hm => (List.mem_filter.1 hm).1, fun hm => List.mem_filter.2 ⟨hm, ?_⟩⟩
    rw [Bool.not_eq_true', Bool.eq_false_iff, ne_eq, List.isSuffixOf_iff_suffix]
    exact fun hs => hne (h.eq_of_suffix (get?_cons_eq_some_iff.2 hm) hs)

theorem get?_of_erase (hg : (t.erase l).get? l' = some n) :
    t.get? l' = some n ∧ (l' ≠ [] → l' ≠ l) := by
  cases l' with
  | nil =>
    rw [get?_nil] at hg ⊢
    exact ⟨hg, fun h => absurd rfl h⟩
  | cons a l' =>
    obtain ⟨hm, hs⟩ := List.mem_filter.1 (get?_cons_eq_some_iff.1 hg)
    refine ⟨get?_cons_eq_some_iff.2 hm, fun _ hl => ?_⟩
    rw [Bool.not_eq_true', Bool.eq_false_iff, ne_eq, List.isSuffixOf_iff_suffix, hl] at hs
    exact hs (List.suffix_refl l)

end ResourceManifest.FileTree
