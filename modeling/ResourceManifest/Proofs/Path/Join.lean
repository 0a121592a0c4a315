import ResourceManifest.FileTree.Resolve

set_option autoImplicit false

namespace ResourceManifest

theorem isEntryName_iff {n : Name} : isEntryName n = true ↔
    n ≠ [] ∧ n ≠ [Path.dot] ∧ n ≠ [Path.dot, Path.dot] ∧ Path.slash ∉ n ∧ 0 ∉ n ∧
      n.length ≤ 255 := by
  simp [isEntryName, and_assoc]

namespace Path

theorem segments_append_slash (a b : Bytes) :
    segments (a ++ slash :: b) = segments a ++ segments b := by
  induction a with
  | nil => simp [segments]
  | cons c a ih =>
    by_cases h : c = slash
    · simp [segments, h, ih]
    · cases hs : segments a with
      | nil => exact absurd hs (segments_ne_nil a)
      | cons s ss =>
        rw [hs] at ih
        simp [segments, h, hs, ih]

theorem segments_of_notMem {n : Bytes} (h : slash ∉ n) : segments n = [n] := by
  induction n with
  | nil => rfl
  | cons b n ih =>
    simp only [List.mem_cons, not_or] at h
    simp [segments, Ne.symm h.1, ih h.2]

theorem segments_eq_singleton_nil {bs : Bytes} (h : segments bs = [[]]) : bs = [] := by
  rw [← joinSegments_segments bs, h]
  rfl

/-- The segments in front of a name that is joined to a path. -/
def stem (p : Path) : List Bytes :=
  if p.bytes.getLast? = some slash then (segments p.bytes).dropLast else segments p.bytes

theorem segments_of_slash_end {p : Path} (h : p.bytes.getLast? = some slash) :
    segments p.bytes = p.stem ++ [[]] := by
  obtain ⟨a, ha⟩ := List.getLast?_eq_some_iff.1 h
  have hs : segments p.bytes = segments a ++ [[]] := by
    rw [ha, segments_append_slash]
    rfl
  rw [stem, if_pos h, hs]
  simp

theorem stem_ne_nil (p : Path) : p.stem ≠ [] := by
  by_cases h : p.bytes.getLast? = some slash
  · obtain ⟨a, ha⟩ := List.getLast?_eq_some_iff.1 h
    have hs : p.stem = segments a := by
      rw [stem, if_pos h, ha, segments_append_slash]
      simp [segments]
    rw [hs]
    exact segments_ne_nil a
  · rw [stem, if_neg h]
    exact segments_ne_nil _

theorem segments_join {p : Path} {n : Name} (hp : p.bytes ≠ []) (hn : slash ∉ n) :
    segments (p.join n).bytes = p.stem ++ [n] := by
  by_cases h : p.bytes.getLast? = some slash
  · obtain ⟨a, ha⟩ := List.getLast?_eq_some_iff.1 h
    have hs : segments p.bytes = segments a ++ [[]] := by
      rw [ha, segments_append_slash]
      rfl
    have hj : (p.join n).bytes = a ++ slash :: n := by simp [join, ha]
    rw [hj, segments_append_slash, segments_of_notMem hn, stem, if_pos h, hs]
    simp
  · rw [stem, if_neg h, join, if_neg (by simp [hp, h])]
    simp only
    rw [segments_append_slash, segments_of_notMem hn]

theorem join_bytes_ne_nil {p : Path} {n : Name} (hp : p.bytes ≠ []) : (p.join n).bytes ≠ [] := by
  unfold join
  split <;> simp [hp]

theorem isAbsolute_join {p : Path} (n : Name) (hp : p.bytes ≠ []) :
    (p.join n).isAbsolute = p.isAbsolute := by
  cases hb : p.bytes with
  | nil => exact absurd hb hp
  | cons b r =>
    unfold join isAbsolute
    split <;> simp [hb]

theorem length_join {p : Path} {n : Name} :
    p.bytes.length + n.length ≤ (p.join n).bytes.length := by
  unfold join
  split <;> simp

theorem length_join_le {p : Path} {n : Name} :
    (p.join n).bytes.length ≤ p.bytes.length + n.length + 1 := by
  unfold join
  split
  · simp
  · rw [List.length_append, List.length_cons]
    omega

theorem nul_notMem_join {p : Path} {n : Name} (hp : 0 ∉ p.bytes) (hn : 0 ∉ n) :
    0 ∉ (p.join n).bytes := by
  unfold join
  split
  · simp [hp, hn]
  · simp [hp, hn, slash]

theorem getLast?_join {p : Path} {n : Name} (hn : n ≠ []) :
    (p.join n).bytes.getLast? = n.getLast? := by
  unfold join
  split
  · simp [List.getLast?_append, List.getLast?_eq_some_getLast hn]
  · simp [List.getLast?_append, List.getLast?_cons, List.getLast?_eq_some_getLast hn]

/-- The segments of a path that are not empty. -/
def names (p : Path) : List Bytes := (segments p.bytes).filter (· ≠ [])

theorem names_eq_stem (p : Path) : p.names = p.stem.filter (· ≠ []) := by
  by_cases h : p.bytes.getLast? = some slash
  · simp [names, segments_of_slash_end h]
  · rw [names, stem, if_neg h]

theorem names_join {p : Path} {n : Name} (hp : p.bytes ≠ []) (hn : n ≠ []) (hs : slash ∉ n) :
    (p.join n).names = p.names ++ [n] := by
  rw [names_eq_stem p, names, segments_join hp hs]
  simp [hn]

theorem length_segments (bs : Bytes) :
    (segments bs).flatten.length + (segments bs).length = bs.length + 1 := by
  induction bs with
  | nil => rfl
  | cons b r ih =>
    by_cases hb : b = slash
    · simp only [segments, if_pos hb, List.flatten_cons, List.length_append, List.length_cons,
        List.length_nil]
      omega
    · cases hr : segments r with
      | nil => exact absurd hr (segments_ne_nil r)
      | cons s ss =>
        rw [hr] at ih
        simp only [segments, if_neg hb, hr, List.flatten_cons, List.length_append,
          List.length_cons] at ih ⊢
        omega

theorem length_names (p : Path) :
    p.names.flatten.length + p.names.length ≤ p.bytes.length + 1 := by
  have hle : p.names.length ≤ (segments p.bytes).length := List.length_filter_le _ _
  have hflat : p.names.flatten = (segments p.bytes).flatten := by
    rw [names]
    induction segments p.bytes with
    | nil => rfl
    | cons s ss ih => cases s <;> simp_all
  have hsum := length_segments p.bytes
  rw [hflat]
  omega

theorem names_join_path {p : Path} (hp : p.bytes ≠ []) (x : Bytes) :
    (p.join x).names = p.names ++ (⟨x⟩ : Path).names := by
  by_cases h : p.bytes.getLast? = some slash
  · obtain ⟨a, ha⟩ := List.getLast?_eq_some_iff.1 h
    have hs : segments p.bytes = segments a ++ [[]] := by
      rw [ha, segments_append_slash]
      rfl
    have hj : (p.join x).bytes = a ++ slash :: x := by simp [join, ha]
    simp [names, hj, hs, segments_append_slash]
  · have hj : (p.join x).bytes = p.bytes ++ slash :: x := by simp [join, hp, h]
    simp [names, hj, segments_append_slash]

theorem steps_eq (p : Path) : p.steps = p.names ∨ p.steps = p.names ++ [[]] := by
  unfold steps names
  by_cases h : (segments p.bytes).filter (· ≠ []) ≠ [] ∧ p.bytes.getLast? = some slash
  · simp only [if_pos h, or_true]
  · simp only [if_neg h, true_or]

theorem steps_of_getLast? {p : Path} (h : p.bytes.getLast? ≠ some slash) : p.steps = p.names :=
  if_neg fun hc => h hc.2

theorem steps_join {p : Path} {n : Name} (hp : p.bytes ≠ []) (hn : n ≠ []) (hs : slash ∉ n) :
    (p.join n).steps = p.names ++ [n] := by
  have hl : (p.join n).bytes.getLast? ≠ some slash := by
    rw [getLast?_join hn]
    intro h
    exact hs (List.mem_of_getLast? h)
  have hj := names_join hp hn hs
  unfold names at hj
  simp only [steps, hj, hl, and_false, if_false]
  rfl

def componentsOf : List Bytes → List Component
  | [] :: t :: ss => .root :: (t :: ss).filterMap component?
  | s :: ss => if s = [dot] then .here :: ss.filterMap component? else (s :: ss).filterMap component?
  | [] => []

theorem components_eq (p : Path) : p.components = componentsOf (segments p.bytes) := rfl

theorem componentsOf_append {s t : Bytes} {ss : List Bytes} (h : s ≠ [] ∨ ss ≠ []) :
    componentsOf (s :: ss ++ [t]) = componentsOf (s :: ss) ++ (component? t).toList := by
  have hf : ∀ us, (us ++ [t]).filterMap component? =
      us.filterMap component? ++ (component? t).toList := by
    intro us
    cases hc : component? t <;> simp [hc]
  cases s with
  | nil =>
    cases ss with
    | nil => simp at h
    | cons u us =>
      have hu := hf (u :: us)
      simp only [List.cons_append] at hu
      simp only [componentsOf, List.cons_append, hu]
  | cons b s =>
    have hb := hf ((b :: s) :: ss)
    simp only [List.cons_append] at hb
    simp only [componentsOf, List.cons_append, hf, hb]
    split <;> rfl

theorem components_ne_nil {p : Path} (hp : p.bytes ≠ []) : p.components ≠ [] := by
  rw [components_eq]
  cases hs : segments p.bytes with
  | nil => exact absurd hs (segments_ne_nil p.bytes)
  | cons s ss =>
    cases s with
    | nil =>
      cases ss with
      | nil => exact absurd (segments_eq_singleton_nil hs) hp
      | cons t ss => simp [componentsOf]
    | cons b s =>
      simp only [componentsOf]
      split
      · simp
      · next hdot =>
        have hsome : (component? (b :: s)).isSome = true := by
          rw [component?, if_neg (by simp [hdot])]
          split <;> rfl
        obtain ⟨c, hc⟩ := Option.isSome_iff_exists.1 hsome
        simp [hc]

/-- Bytes that are one name of a path wherever they are joined to it. -/
structure IsSegment (n : Name) : Prop where
  ne_nil : n ≠ []
  ne_dot : n ≠ [dot]
  ne_dots : n ≠ [dot, dot]
  noSlash : slash ∉ n

theorem IsSegment.of_isEntryName {n : Name} (h : isEntryName n = true) : IsSegment n :=
  have ⟨h₁, h₂, h₃, hs, _⟩ := isEntryName_iff.1 h
  ⟨h₁, h₂, h₃, hs⟩

theorem isSegment_of_isEntryName {ns : List Name} (h : ∀ n ∈ ns, isEntryName n = true) :
    ∀ n ∈ ns, IsSegment n := fun n hn => .of_isEntryName (h n hn)

theorem component?_name {n : Name} (hn : IsSegment n) : component? n = some (.name n) := by
  simp [component?, hn.ne_nil, hn.ne_dot, hn.ne_dots]

theorem components_join {p : Path} {n : Name} (hp : p.bytes ≠ []) (hn : IsSegment n) :
    (p.join n).components = p.components ++ [.name n] := by
  rw [components_eq, components_eq, segments_join hp hn.noSlash]
  cases hst : p.stem with
  | nil => exact absurd hst p.stem_ne_nil
  | cons s ss =>
    by_cases h : p.bytes.getLast? = some slash
    · rw [segments_of_slash_end h, hst]
      by_cases he : s = [] ∧ ss = []
      · obtain ⟨rfl, rfl⟩ := he
        have hc := component?_name hn
        simp [componentsOf, hc, show component? [] = none from rfl]
      · have hne := Classical.not_and_iff_not_or_not.1 he
        rw [componentsOf_append hne, componentsOf_append hne, component?_name hn]
        simp [component?]
    · have hseg : segments p.bytes = s :: ss := by rw [← hst, stem, if_neg h]
      have hne : s ≠ [] ∨ ss ≠ [] := by
        refine Classical.not_and_iff_not_or_not.1 ?_
        intro hx
        obtain ⟨rfl, rfl⟩ := hx
        exact hp (segments_eq_singleton_nil hseg)
      rw [hseg, componentsOf_append hne, component?_name hn]
      rfl

/-- A path with names joined to it one after the other. -/
def joinAll (p : Path) (ns : List Name) : Path := ns.foldl join p

@[simp] theorem joinAll_nil (p : Path) : p.joinAll [] = p := rfl

@[simp] theorem joinAll_cons (p : Path) (n : Name) (ns : List Name) :
    p.joinAll (n :: ns) = (p.join n).joinAll ns := rfl

theorem joinAll_append (p : Path) (ms ns : List Name) :
    p.joinAll (ms ++ ns) = (p.joinAll ms).joinAll ns := List.foldl_append

theorem joinAll_snoc (p : Path) (ns : List Name) (n : Name) :
    p.joinAll (ns ++ [n]) = (p.joinAll ns).join n := by simp [joinAll_append]

theorem joinAll_bytes_ne_nil {p : Path} (hp : p.bytes ≠ []) (ns : List Name) :
    (p.joinAll ns).bytes ≠ [] := by
  induction ns generalizing p with
  | nil => exact hp
  | cons n ns ih => exact ih (join_bytes_ne_nil hp)

theorem components_joinAll {p : Path} (hp : p.bytes ≠ []) {ns : List Name}
    (hn : ∀ n ∈ ns, IsSegment n) :
    (p.joinAll ns).components = p.components ++ ns.map .name := by
  induction ns generalizing p with
  | nil => simp
  | cons n ns ih =>
    have h := ih (join_bytes_ne_nil (n := n) hp) fun m hm => hn m (by simp [hm])
    rw [joinAll_cons, h, components_join hp (hn n (by simp))]
    simp

theorem length_joinAll {p : Path} {ns : List Name} (hn : ∀ n ∈ ns, isEntryName n = true) :
    p.bytes.length + ns.length ≤ (p.joinAll ns).bytes.length := by
  induction ns generalizing p with
  | nil => simp
  | cons n ns ih =>
    have h := ih (p := p.join n) fun m hm => hn m (by simp [hm])
    have hj := length_join (p := p) (n := n)
    have hl : 0 < n.length := List.length_pos_iff.2 (isEntryName_iff.1 (hn n (by simp))).1
    simp only [joinAll_cons, List.length_cons]
    omega

theorem names_joinAll {p : Path} (hp : p.bytes ≠ []) {ns : List Name}
    (hn : ∀ n ∈ ns, isEntryName n = true) : (p.joinAll ns).names = p.names ++ ns := by
  induction ns generalizing p with
  | nil => simp
  | cons n ns ih =>
    obtain ⟨hne, -, -, hs, -, -⟩ := isEntryName_iff.1 (hn n (by simp))
    have h := ih (join_bytes_ne_nil (n := n) hp) fun m hm => hn m (by simp [hm])
    rw [joinAll_cons, h, names_join hp hne hs]
    simp

theorem joinSegments_cons {n : Bytes} {ns : List Bytes} (hns : ns ≠ []) :
    joinSegments (n :: ns) = n ++ slash :: joinSegments ns := by
  cases ns with
  | nil => exact absurd rfl hns
  | cons m ms => rfl

theorem join_append (p : Path) (n x : Bytes) : (p.join n).bytes ++ x = (p.join (n ++ x)).bytes := by
  unfold join
  split <;> simp

theorem join_join {p : Path} {n x : Bytes} (hn : n ≠ []) (hs : slash ∉ n) :
    (p.join n).join x = p.join (n ++ slash :: x) := by
  have hend : (p.join n).bytes.getLast? ≠ some slash := by
    rw [getLast?_join hn]
    exact fun h => hs (List.mem_of_getLast? h)
  have hne : (p.join n).bytes ≠ [] := by
    unfold join
    split <;> simp [hn]
  have hj : (p.join n).join x = ⟨(p.join n).bytes ++ slash :: x⟩ := by
    rw [join, if_neg (by simp [hne, hend])]
  rw [hj, join_append]

theorem joinAll_eq_join {p : Path} {ns : List Name} (hne : ns ≠ [])
    (hn : ∀ n ∈ ns, IsSegment n) : p.joinAll ns = p.join (joinSegments ns) := by
  induction ns generalizing p with
  | nil => exact absurd rfl hne
  | cons n ns ih =>
    cases hns : ns with
    | nil => rfl
    | cons m ms =>
      have hns' : ns ≠ [] := by simp [hns]
      obtain ⟨hn₀, -, -, hs⟩ := hn n (by simp)
      have hi := ih (p := p.join n) hns' fun k hk => hn k (by simp [hk])
      rw [← hns, joinAll_cons, hi, join_join hn₀ hs, joinSegments_cons hns']

theorem nul_notMem_joinAll {p : Path} (hp : 0 ∉ p.bytes) {ns : List Name}
    (hn : ∀ n ∈ ns, isEntryName n = true) : 0 ∉ (p.joinAll ns).bytes := by
  induction ns generalizing p with
  | nil => exact hp
  | cons n ns ih =>
    obtain ⟨-, -, -, -, h₀, -⟩ := isEntryName_iff.1 (hn n (by simp))
    exact ih (nul_notMem_join hp h₀) fun m hm => hn m (by simp [hm])

theorem namesBelow_joinAll {p : Path} (hp : p.bytes ≠ []) {ns : List Name}
    (hn : ∀ n ∈ ns, IsSegment n) : namesBelow p (p.joinAll ns) = some ns := by
  have ha : after? p.components (p.joinAll ns).components = some (ns.map .name) :=
    after?_eq_some_iff.2 (components_joinAll hp hn)
  have hf : (ns.map Component.name).filterMap Component.name? = ns := by
    simp [List.filterMap_map, Function.comp_def, Component.name?]
  rw [namesBelow, ha, Option.map_some, hf]

theorem relativeEntry_joinAll {p : Path} (hp : p.bytes ≠ []) {ns : List Name} (hne : ns ≠ [])
    (hn : ∀ n ∈ ns, IsSegment n) :
    relativeEntry p (p.joinAll ns) = some (entryText ns) := by
  rw [relativeEntry, namesBelow_joinAll hp hn]
  cases ns with
  | nil => exact absurd rfl hne
  | cons n ns => rfl

theorem fileName?_join {p : Path} {n : Name} (hp : p.bytes ≠ []) (hn : IsSegment n) :
    (p.join n).fileName? = some n := by
  simp [fileName?, components_join hp hn, Component.name?]

theorem names_ne_nil {p : Path} (hp : p.bytes ≠ []) (ha : p.isAbsolute = false) :
    p.names ≠ [] := by
  obtain ⟨b, r, hb⟩ := List.exists_cons_of_ne_nil hp
  have hslash : b ≠ slash := by
    rintro rfl
    simp [isAbsolute, hb] at ha
  have hsegs : ∃ s ss, segments p.bytes = (b :: s) :: ss := by
    rw [hb, segments, if_neg hslash]
    split
    · exact ⟨_, _, rfl⟩
    · exact ⟨_, _, rfl⟩
  obtain ⟨s, ss, hsegs⟩ := hsegs
  refine List.ne_nil_of_mem (List.mem_filter.2 ⟨?_, ?_⟩ : b :: s ∈ p.names)
  · rw [hsegs]
    exact List.mem_cons_self
  · rfl

end Path

namespace Location

open ResourceManifest.Path

theorem path_eq_joinAll {l : Location} (hl : ∀ n ∈ l, isEntryName n = true) :
    path l = (⟨[slash]⟩ : Path).joinAll l.reverse := by
  induction l with
  | nil => rfl
  | cons n l ih =>
    have hi := ih fun m hm => hl m (by simp [hm])
    rw [List.reverse_cons, joinAll_snoc, ← hi]
    cases l with
    | nil => simp [path, join]
    | cons m l =>
      obtain ⟨hm₀, -, -, hs, -⟩ := isEntryName_iff.1 (hl m (by simp))
      have hend : (path (m :: l)).bytes.getLast? ≠ some slash := by
        simp only [path, List.cons_ne_nil, if_false, List.reverse_cons, List.flatMap_append,
          List.flatMap_cons, List.flatMap_nil, List.append_nil]
        rw [List.getLast?_append, List.getLast?_cons, List.getLast?_eq_some_getLast hm₀]
        intro h
        simp only [Option.getD_some, Option.some_or, Option.some.injEq] at h
        exact hs (h ▸ List.getLast_mem hm₀)
      have hne : (path (m :: l)).bytes ≠ [] := by simp [path]
      rw [join, if_neg (by simp [hne, hend])]
      simp [path]

theorem isAbsolute_path (l : Location) : (path l).isAbsolute = true := by
  unfold path Path.isAbsolute
  split
  · rfl
  · next hne =>
    cases hr : l.reverse with
    | nil => exact absurd (List.reverse_eq_nil_iff.1 hr) hne
    | cons n ns => simp

theorem path_bytes_ne_nil (l : Location) : (path l).bytes ≠ [] := by
  cases l with
  | nil => simp [path]
  | cons n l => simp [path]

theorem names_path {l : Location} (hl : ∀ n ∈ l, isEntryName n = true) :
    (path l).names = l.reverse := by
  have hr : ∀ n ∈ l.reverse, isEntryName n = true := fun n hn => hl n (List.mem_reverse.1 hn)
  rw [path_eq_joinAll hl, names_joinAll (List.cons_ne_nil slash []) hr]
  rfl

theorem length_path_append_le (l m : Location) :
    (path m).bytes.length ≤ (path (l ++ m)).bytes.length := by
  induction l with
  | nil => exact Nat.le_refl _
  | cons n l ih =>
    refine Nat.le_trans ih ?_
    rw [List.cons_append, path, path, if_neg (List.cons_ne_nil n (l ++ m))]
    split
    · next hnil => simp [hnil]
    · simp

theorem nul_notMem_path {l : Location} (hl : ∀ n ∈ l, isEntryName n = true) :
    0 ∉ (path l).bytes := by
  rw [path_eq_joinAll hl]
  exact nul_notMem_joinAll (by decide) fun n hn => hl n (List.mem_reverse.1 hn)

end Location

end ResourceManifest
