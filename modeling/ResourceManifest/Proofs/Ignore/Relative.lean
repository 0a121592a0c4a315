import ResourceManifest.Ignore.Guard
import ResourceManifest.Proofs.Path.Join

set_option autoImplicit false

namespace ResourceManifest

namespace Path

theorem head?_joinSegments {ns : List Name} (hne : ns ≠ []) (hn : ∀ n ∈ ns, isEntryName n = true) :
    (joinSegments ns).head? ≠ some slash := by
  cases ns with
  | nil => exact absurd rfl hne
  | cons n ns =>
    obtain ⟨hn₀, -, -, hs, -⟩ := isEntryName_iff.1 (hn n (by simp))
    cases n with
    | nil => exact absurd rfl hn₀
    | cons b n =>
      have hb : b ≠ slash := fun hb => hs (by simp [hb])
      cases ns <;> simpa [joinSegments] using hb

theorem joinSegments_eq_joinAll {n : Name} {ns : List Name}
    (hn : ∀ m ∈ n :: ns, isEntryName m = true) :
    (⟨joinSegments (n :: ns)⟩ : Path) = (⟨n⟩ : Path).joinAll ns := by
  have hb := joinAll_eq_join (p := ⟨[]⟩) (List.cons_ne_nil n ns) (isSegment_of_isEntryName hn)
  have hnil : ∀ x : Bytes, (⟨[]⟩ : Path).join x = ⟨x⟩ := fun x => rfl
  rw [joinAll_cons, hnil, hnil] at hb
  exact hb.symm

theorem components_joinSegments {ns : List Name} (hne : ns ≠ [])
    (hn : ∀ n ∈ ns, isEntryName n = true) :
    (⟨joinSegments ns⟩ : Path).components = ns.map .name := by
  cases ns with
  | nil => exact absurd rfl hne
  | cons n ns =>
    obtain ⟨hn₀, hn₁, -, hs, -⟩ := isEntryName_iff.1 (hn n (by simp))
    have hc : (⟨n⟩ : Path).components = [.name n] := by
      rw [components_eq, segments_of_notMem hs]
      cases n with
      | nil => exact absurd rfl hn₀
      | cons b n => simp [componentsOf, hn₁, component?_name (.of_isEntryName (hn (b :: n) (by simp)))]
    rw [joinSegments_eq_joinAll hn,
      components_joinAll hn₀ fun m hm => .of_isEntryName (hn m (by simp [hm])), hc]
    rfl

end Path

namespace RuleFile

open ResourceManifest.Path

variable {q root : Path} {rules : List Rule} {ds below : List Name}

theorem withoutHere_of_notMem (h : Component.here ∉ q.components) :
    withoutHere q.bytes = q.bytes := by
  unfold withoutHere
  split
  · next r hr =>
    refine absurd ?_ h
    have hs : segments q.bytes = [dot] :: segments r := by
      rw [hr]
      exact segments_append_slash [dot] r
    simp [components_eq, hs, componentsOf, dot]
  · rfl

theorem isHere_of_notMem (h : Component.here ∉ q.components) : isHere q.bytes = false := by
  refine decide_eq_false fun hc => h ?_
  rw [hc]
  simp

theorem after?_join (q : Path) {x : Bytes} (hx : x.head? ≠ some slash) :
    ∃ y, after? q.bytes (q.join x).bytes = some y ∧ dropPrefix [slash] y = x := by
  unfold join
  split
  · refine ⟨x, after?_eq_some_iff.2 rfl, ?_⟩
    have hnone : after? [slash] x = none := by
      cases hc : after? [slash] x with
      | none => rfl
      | some y =>
        rw [after?_eq_some_iff.1 hc] at hx
        simp at hx
    simp [dropPrefix, hnone]
  · exact ⟨slash :: x, after?_eq_some_iff.2 rfl, by simp [dropPrefix, after?]⟩

theorem here_notMem_joinAll (hq : q.bytes ≠ []) (hhere : Component.here ∉ q.components)
    (hds : ∀ n ∈ ds, isEntryName n = true) : Component.here ∉ (q.joinAll ds).components := by
  rw [components_joinAll hq (isSegment_of_isEntryName hds)]
  simp [hhere]

theorem strip_joinAll (hq : q.bytes ≠ []) (hhere : Component.here ∉ q.components)
    (hne : below ≠ []) (hbelow : ∀ n ∈ below, isEntryName n = true) :
    strip ⟨q.bytes, rules⟩ (q.joinAll below).bytes = joinSegments below := by
  have hp := withoutHere_of_notMem (here_notMem_joinAll hq hhere hbelow)
  obtain ⟨y, hy, hd⟩ := after?_join q (head?_joinSegments hne hbelow)
  rw [← joinAll_eq_join hne (isSegment_of_isEntryName hbelow)] at hy
  have hs : slash ∈ (q.joinAll below).bytes := by
    rw [joinAll_eq_join hne (isSegment_of_isEntryName hbelow), join]
    split
    · next h =>
      have hl := List.mem_of_getLast? (h.resolve_left hq)
      simp [hl]
    · simp
  simp [strip, hp, isHere_of_notMem hhere, hs, hy, hd]

/-- The two spellings of the present directory under which the rules see what lies in it. -/
def IsPresent (root : Path) : Prop := root.bytes = [dot] ∨ root.bytes = [dot, slash]

/-- The directories that a walk may begin in: the present one, under one of its two spellings, or
another one whose path begins with no dot or with just one and a slash behind it. -/
def Plain (root : Path) : Prop :=
  IsPresent root ∨ isHere root.bytes = false ∧ withoutHere root.bytes ≠ [] ∧
    Component.here ∉ (⟨withoutHere root.bytes⟩ : Path).components

theorem plain_of_notMem (hq : root.bytes ≠ []) (hhere : Component.here ∉ root.components) :
    Plain root := by
  refine .inr ⟨isHere_of_notMem hhere, ?_, ?_⟩ <;> rwa [withoutHere_of_notMem hhere]

theorem Plain.bytes_ne_nil (h : Plain root) : root.bytes ≠ [] := by
  rcases h with (h | h) | ⟨-, hq, -⟩
  · simp [h]
  · simp [h]
  · intro hb
    rw [hb] at hq
    exact hq rfl

theorem IsPresent.joinAll_eq (h : IsPresent root) (hne : ds ≠ []) :
    root.joinAll ds = (⟨[dot]⟩ : Path).joinAll ds := by
  obtain ⟨d, ds, rfl⟩ := List.exists_cons_of_ne_nil hne
  have hjoin : root.join d = (⟨[dot]⟩ : Path).join d := by
    obtain ⟨bytes⟩ := root
    rcases h with rfl | rfl <;> rfl
  rw [joinAll_cons, joinAll_cons, hjoin]

theorem withoutHere_cases (bs : Bytes) :
    (∃ r, bs = dot :: slash :: r ∧ withoutHere bs = r) ∨ withoutHere bs = bs := by
  unfold withoutHere
  split
  · next r => exact .inl ⟨r, rfl, rfl⟩
  · exact .inr rfl

theorem joinAll_behind {r : Bytes} (hr : r ≠ []) (ds : List Name) :
    ((⟨dot :: slash :: r⟩ : Path).joinAll ds).bytes =
      dot :: slash :: ((⟨r⟩ : Path).joinAll ds).bytes := by
  induction ds generalizing r with
  | nil => rfl
  | cons d ds ih =>
    have hlast : (dot :: slash :: r).getLast? = r.getLast? := by
      obtain ⟨b, r, rfl⟩ := List.exists_cons_of_ne_nil hr
      simp
    have hjoin : (⟨dot :: slash :: r⟩ : Path).join d =
        ⟨dot :: slash :: ((⟨r⟩ : Path).join d).bytes⟩ := by
      simp only [join, hlast, hr, false_or, reduceCtorEq]
      split <;> rfl
    rw [joinAll_cons, joinAll_cons, hjoin, ih (join_bytes_ne_nil hr)]

theorem withoutHere_joinAll (hq : withoutHere root.bytes ≠ [])
    (hhere : Component.here ∉ (⟨withoutHere root.bytes⟩ : Path).components)
    (hds : ∀ n ∈ ds, isEntryName n = true) :
    withoutHere (root.joinAll ds).bytes = ((⟨withoutHere root.bytes⟩ : Path).joinAll ds).bytes := by
  obtain ⟨bytes⟩ := root
  rcases withoutHere_cases bytes with ⟨r, rfl, hr⟩ | hr
  · simp only [hr] at hq ⊢
    rw [joinAll_behind hq]
    rfl
  · simp only [hr] at hq hhere ⊢
    exact withoutHere_of_notMem (here_notMem_joinAll hq hhere hds)

theorem withoutHere_here (hne : ds ≠ []) (hds : ∀ n ∈ ds, isEntryName n = true) :
    withoutHere ((⟨[dot]⟩ : Path).joinAll ds).bytes = joinSegments ds := by
  rw [joinAll_eq_join hne (isSegment_of_isEntryName hds)]
  rfl

theorem here_notMem_joinSegments (hne : ds ≠ []) (hds : ∀ n ∈ ds, isEntryName n = true) :
    Component.here ∉ (⟨joinSegments ds⟩ : Path).components := by
  rw [components_joinSegments hne hds]
  simp

theorem joinSegments_ne_nil (hne : ds ≠ []) (hds : ∀ n ∈ ds, isEntryName n = true) :
    joinSegments ds ≠ [] := by
  cases ds with
  | nil => exact absurd rfl hne
  | cons d ds =>
    have hj : joinSegments (d :: ds) = ((⟨d⟩ : Path).joinAll ds).bytes :=
      congrArg Path.bytes (joinSegments_eq_joinAll hds)
    rw [hj]
    exact joinAll_bytes_ne_nil (isEntryName_iff.1 (hds d (by simp))).1 ds

theorem joinSegments_append (hne : ds ≠ []) (hds : ∀ n ∈ ds ++ below, isEntryName n = true) :
    joinSegments (ds ++ below) = ((⟨joinSegments ds⟩ : Path).joinAll below).bytes := by
  cases ds with
  | nil => exact absurd rfl hne
  | cons d ds =>
    rw [joinSegments_eq_joinAll fun n hn => hds n (List.mem_append_left below hn),
      ← joinAll_append]
    exact congrArg Path.bytes (joinSegments_eq_joinAll hds)

theorem isHere_joinAll (hq : root.bytes ≠ []) (hne : ds ≠ [])
    (hds : ∀ n ∈ ds, isEntryName n = true) : isHere (root.joinAll ds).bytes = false := by
  refine decide_eq_false fun hc => ?_
  have hlen := congrArg List.length hc
  rw [components_joinAll hq (isSegment_of_isEntryName hds), List.length_append, List.length_map] at hlen
  have hpos := List.length_pos_iff.2 hne
  have hroot := List.length_pos_iff.2 (components_ne_nil hq)
  simp only [List.length_singleton] at hlen
  omega

theorem Plain.joinAll (h : Plain root) (hds : ∀ n ∈ ds, isEntryName n = true) :
    Plain (root.joinAll ds) := by
  by_cases hne : ds = []
  · subst hne
    exact h
  · have hhere := isHere_joinAll h.bytes_ne_nil hne hds
    rcases h with h | ⟨-, hq, hnot⟩
    · rw [h.joinAll_eq hne] at hhere ⊢
      refine .inr ⟨hhere, ?_, ?_⟩ <;> rw [withoutHere_here hne hds]
      · exact joinSegments_ne_nil hne hds
      · exact here_notMem_joinSegments hne hds
    · refine .inr ⟨hhere, ?_, ?_⟩ <;> rw [withoutHere_joinAll hq hnot hds]
      · exact joinAll_bytes_ne_nil hq ds
      · exact here_notMem_joinAll hq hnot hds

theorem IsPresent.strip (h : IsPresent root) (hds : ∀ n ∈ ds, isEntryName n = true)
    (hne : below ≠ []) (hbelow : ∀ n ∈ below, isEntryName n = true) :
    strip ⟨withoutHere (root.joinAll ds).bytes, rules⟩
      (withoutHere (root.joinAll (ds ++ below)).bytes) = joinSegments below := by
  have hall : ∀ n ∈ ds ++ below, isEntryName n = true := List.forall_mem_append.2 ⟨hds, hbelow⟩
  rw [h.joinAll_eq (List.append_ne_nil_of_right_ne_nil ds hne), withoutHere_here (by simp [hne]) hall]
  by_cases hds₀ : ds = []
  · subst hds₀
    have hw := withoutHere_of_notMem (here_notMem_joinSegments hne hbelow)
    obtain ⟨bytes⟩ := root
    rcases h with rfl | rfl
    · have hh : isHere (withoutHere [dot]) = true := by decide
      simp only [joinAll_nil, List.nil_append, RuleFile.strip, hh, true_or, if_true]
      exact hw
    · -- Here the rules' own path is empty, and nothing is taken off the entry's.
      have hh : withoutHere [dot, slash] = [] := rfl
      have hnone : after? [slash] (joinSegments below) = none := by
        cases hc : after? [slash] (joinSegments below) with
        | none => rfl
        | some y =>
          have hhead := head?_joinSegments hne hbelow
          rw [after?_eq_some_iff.1 hc] at hhead
          exact absurd rfl hhead
      simp only [joinAll_nil, List.nil_append, RuleFile.strip, hh, hw]
      split
      · rfl
      · simp [after?, dropPrefix, hnone]
  · rw [h.joinAll_eq hds₀, withoutHere_here hds₀ hds, joinSegments_append hds₀ hall]
    have hd : (⟨joinSegments ds⟩ : Path).bytes ≠ [] := joinSegments_ne_nil hds₀ hds
    exact strip_joinAll hd (here_notMem_joinSegments hds₀ hds) hne hbelow

theorem strip_below (hroot : Plain root) (hds : ∀ n ∈ ds, isEntryName n = true)
    (hne : below ≠ []) (hbelow : ∀ n ∈ below, isEntryName n = true) :
    strip ⟨withoutHere (root.joinAll ds).bytes, rules⟩
      (withoutHere (root.joinAll (ds ++ below)).bytes) = joinSegments below := by
  rcases hroot with h | ⟨-, hq, hhere⟩
  · exact h.strip hds hne hbelow
  · have hall : ∀ n ∈ ds ++ below, isEntryName n = true := List.forall_mem_append.2 ⟨hds, hbelow⟩
    rw [withoutHere_joinAll hq hhere hds, withoutHere_joinAll hq hhere hall, joinAll_append]
    exact strip_joinAll (joinAll_bytes_ne_nil hq ds) (here_notMem_joinAll hq hhere hds) hne hbelow

end RuleFile

namespace IgnoreState

open ResourceManifest.Path RuleFile

variable {s : IgnoreState} {r : Location} {ns : List Name}

theorem dropPrefix_joinAll {q : Path} (hne : ns ≠ []) (hns : ∀ n ∈ ns, isEntryName n = true) :
    dropPrefix [slash] (dropPrefix q.bytes (q.joinAll ns).bytes) = joinSegments ns := by
  obtain ⟨y, hy, hd⟩ := after?_join q (head?_joinSegments hne hns)
  rw [← joinAll_eq_join hne (isSegment_of_isEntryName hns)] at hy
  have hdrop : dropPrefix q.bytes (q.joinAll ns).bytes = y := by
    rw [dropPrefix, hy]
    rfl
  rw [hdrop, hd]

theorem fromTop_joinAll (hroot : Plain s.root) (hbase : s.base = Location.path r) (hne : ns ≠ [])
    (hns : ∀ n ∈ ns, isEntryName n = true) :
    s.fromTop (withoutHere (s.root.joinAll ns).bytes) =
      ((Location.path r).joinAll ns).bytes := by
  rw [joinAll_eq_join (p := Location.path r) hne (isSegment_of_isEntryName hns), fromTop, hbase]
  rcases hroot with h | ⟨hhere, hq, hnot⟩
  · have hh : isHere s.root.bytes = true := by
      rcases h with h | h <;> rw [h] <;> decide
    rw [h.joinAll_eq hne, withoutHere_here hne hns, hh]
    rfl
  · rw [withoutHere_joinAll hq hnot hns, hhere, dropPrefix_joinAll hne hns]
    rfl

theorem isHidden_join {p : Path} {n : Name} (hp : p.bytes ≠ []) (hn : isEntryName n = true) :
    isHidden (p.join n) = (n.head? == some dot) := by
  rw [isHidden, segments_join hp (isEntryName_iff.1 hn).2.2.2.1, List.getLastD_concat]

end IgnoreState

end ResourceManifest
