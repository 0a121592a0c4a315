import ResourceManifest.FileTree.Basic

set_option autoImplicit false

namespace ResourceManifest

theorem mem_insertName {n m : Name} {ns : List Name} :
    m ∈ insertName n ns ↔ m = n ∨ m ∈ ns := by
  induction ns with
  | nil => simp [insertName]
  | cons a ns ih =>
    unfold insertName
    split
    · simp
    · simp only [List.mem_cons, ih]
      constructor
      · rintro (h | h | h) <;> simp [h]
      · rintro (h | h | h) <;> simp [h]

theorem mem_sortNames {m : Name} {ns : List Name} : m ∈ sortNames ns ↔ m ∈ ns := by
  induction ns with
  | nil => simp [sortNames]
  | cons n ns ih =>
    have hs : sortNames (n :: ns) = insertName n (sortNames ns) := rfl
    rw [hs, mem_insertName, ih, List.mem_cons]

theorem nodup_insertName {n : Name} {ns : List Name} (hn : n ∉ ns) (h : ns.Nodup) :
    (insertName n ns).Nodup := by
  induction ns with
  | nil => simp [insertName]
  | cons a ns ih =>
    obtain ⟨ha, hns⟩ := List.nodup_cons.1 h
    simp only [List.mem_cons, not_or] at hn
    unfold insertName
    split
    · simp [hn, ha, hns]
    · rw [List.nodup_cons, mem_insertName]
      refine ⟨?_, ih hn.2 hns⟩
      rintro (rfl | hm)
      · exact hn.1 rfl
      · exact ha hm

theorem nodup_sortNames {ns : List Name} (h : ns.Nodup) : (sortNames ns).Nodup := by
  induction ns with
  | nil => simp [sortNames]
  | cons n ns ih =>
    obtain ⟨hn, hns⟩ := List.nodup_cons.1 h
    have hs : sortNames (n :: ns) = insertName n (sortNames ns) := rfl
    rw [hs]
    exact nodup_insertName (by rwa [mem_sortNames]) (ih hns)

theorem Location.nameIn?_eq_some_iff {l p : Location} {n : Name} :
    Location.nameIn? p l = some n ↔ l = n :: p := by
  cases l with
  | nil => simp [nameIn?]
  | cons m q =>
    by_cases h : q = p
    · simp [nameIn?, h]
    · simp [nameIn?, h]

namespace FileTree

variable {t : FileTree}

@[simp] theorem get?_nil (t : FileTree) : t.get? [] = some (.dir 0o755) := by simp [get?]

@[simp] theorem isDir_nil (t : FileTree) : t.isDir [] = true := by simp [isDir, Node.isDir]

theorem lookup_eq_some_of_mem {l : Location} {n : Node} {nodes : List (Location × Node)}
    (hd : (nodes.map (·.1)).Nodup) (h : (l, n) ∈ nodes) : nodes.lookup l = some n := by
  induction nodes with
  | nil => simp at h
  | cons e es ih =>
    obtain ⟨l', n'⟩ := e
    rw [List.map_cons, List.nodup_cons] at hd
    rcases List.mem_cons.1 h with he | he
    · obtain ⟨rfl, rfl⟩ := Prod.mk.injEq .. ▸ he
      simp
    · have hl : l ≠ l' := by
        rintro rfl
        exact hd.1 (List.mem_map.2 ⟨_, he, rfl⟩)
      simp only [List.lookup_cons, beq_false_of_ne hl]
      exact ih hd.2 he

theorem get?_cons_eq_some_iff {n : Name} {l : Location} {d : Node} :
    t.get? (n :: l) = some d ↔ (n :: l, d) ∈ t.nodes := by
  have hg : t.get? (n :: l) = t.nodes.lookup (n :: l) := by simp [get?]
  rw [hg]
  exact ⟨mem_of_lookup_eq_some, lookup_eq_some_of_mem t.nodup⟩

theorem isDir_iff {l : Location} : t.isDir l = true ↔ ∃ mode, t.get? l = some (.dir mode) := by
  unfold isDir
  constructor
  · intro h
    obtain ⟨d, hd, hn⟩ := (Option.any_eq_true _ _).1 h
    cases d with
    | dir mode => exact ⟨mode, hd⟩
    | _ => simp [Node.isDir] at hn
  · intro hx
    obtain ⟨mode, h⟩ := hx
    simp [h, Node.isDir]

theorem isDir_of_get? {l : Location} {n : Node} (h : t.get? l = some n) : t.isDir l = n.isDir := by
  rw [isDir, h, Option.any_some]

theorem isDir_of_get?_cons {n : Name} {l : Location} {d : Node}
    (h : t.get? (n :: l) = some d) : t.isDir l = true := by
  have hr := t.rooted _ (get?_cons_eq_some_iff.1 h)
  simp only [List.tail_cons] at hr
  rcases hr with rfl | ⟨mode, hm⟩
  · simp
  · cases l with
    | nil => simp
    | cons m l => exact isDir_iff.2 ⟨mode, get?_cons_eq_some_iff.2 hm⟩

theorem isDir_tail {l : Location} (h : t.isDir l = true) : t.isDir l.tail = true := by
  cases l with
  | nil => exact h
  | cons n l =>
    obtain ⟨mode, hm⟩ := isDir_iff.1 h
    exact isDir_of_get?_cons hm

theorem isDir_of_suffix {l m : Location} (h : t.isDir l = true) (hs : m <:+ l) :
    t.isDir m = true := by
  induction l with
  | nil => rwa [List.suffix_nil.1 hs]
  | cons n l ih =>
    rcases List.suffix_cons_iff.1 hs with rfl | hs
    · exact h
    · exact ih (isDir_tail h) hs

theorem isEntryName_of_get? {n : Name} {l : Location} {d : Node}
    (h : t.get? (n :: l) = some d) : isEntryName n = true := by
  have hn := (t.named _ (get?_cons_eq_some_iff.1 h)).2
  simp only [List.all_cons, Bool.and_eq_true] at hn
  exact hn.1

theorem isEntryName_of_isDir {l : Location} (h : t.isDir l = true) :
    ∀ n ∈ l, isEntryName n = true := by
  rcases exists_dir_of_isDir h with rfl | ⟨mode, hm⟩
  · simp
  · exact fun n hn => List.all_eq_true.1 (t.named _ hm).2 n hn

theorem mem_names_iff {n : Name} {l : Location} :
    n ∈ t.names l ↔ ∃ d, t.get? (n :: l) = some d := by
  unfold names
  rw [mem_sortNames, List.mem_filterMap]
  constructor
  · intro hx
    obtain ⟨⟨l', d⟩, hm, hn⟩ := hx
    obtain rfl := Location.nameIn?_eq_some_iff.1 hn
    exact ⟨d, get?_cons_eq_some_iff.2 hm⟩
  · intro hx
    obtain ⟨d, h⟩ := hx
    exact ⟨_, get?_cons_eq_some_iff.1 h, Location.nameIn?_eq_some_iff.2 rfl⟩

theorem names_nodup (t : FileTree) (l : Location) : (t.names l).Nodup := by
  refine nodup_sortNames ?_
  have hp := List.pairwise_map.1 t.nodup
  refine List.Pairwise.filterMap _ ?_ hp
  intro e e' hne n hn n' hn' hnn
  rw [Location.nameIn?_eq_some_iff.1 hn, Location.nameIn?_eq_some_iff.1 hn', hnn] at hne
  exact hne rfl

def directories (t : FileTree) : List Location :=
  [] :: (t.nodes.filter (·.2.isDir)).map (·.1)

theorem mem_directories_iff {l : Location} : l ∈ t.directories ↔ t.isDir l = true := by
  constructor
  · intro h
    rcases List.mem_cons.1 h with rfl | h
    · exact isDir_nil t
    · obtain ⟨⟨l', d⟩, hm, rfl⟩ := List.mem_map.1 h
      obtain ⟨hm, hd⟩ := List.mem_filter.1 hm
      have hne := (t.named _ hm).1
      cases l' with
      | nil => exact absurd rfl hne
      | cons n l =>
        rw [isDir, get?_cons_eq_some_iff.2 hm]
        simpa using hd
  · intro h
    rcases exists_dir_of_isDir h with rfl | ⟨mode, hm⟩
    · simp [directories]
    · refine List.mem_cons_of_mem _ (List.mem_map.2 ⟨_, List.mem_filter.2 ⟨hm, ?_⟩, rfl⟩)
      simp [Node.isDir]

end FileTree

end ResourceManifest
