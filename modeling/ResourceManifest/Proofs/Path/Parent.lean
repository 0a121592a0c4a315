import ResourceManifest.FileSystem
import ResourceManifest.Proofs.Path.Join

set_option autoImplicit false

namespace ResourceManifest

namespace Path

theorem mem_of_mem_segments {b : UInt8} {s bs : Bytes} (hs : s ∈ segments bs) (hb : b ∈ s) :
    b ∈ bs ∧ b ≠ slash := by
  induction bs generalizing s with
  | nil =>
    obtain rfl := List.mem_singleton.1 hs
    simp at hb
  | cons c r ih =>
    by_cases hc : c = slash
    · rw [segments, if_pos hc] at hs
      rcases List.mem_cons.1 hs with rfl | hs
      · simp at hb
      · obtain ⟨hm, hne⟩ := ih hs hb
        exact ⟨List.mem_cons_of_mem c hm, hne⟩
    · cases hr : segments r with
      | nil => exact absurd hr (segments_ne_nil r)
      | cons t ts =>
        rw [hr] at ih
        simp only [segments, if_neg hc, hr] at hs
        rcases List.mem_cons.1 hs with rfl | hs
        · rcases List.mem_cons.1 hb with rfl | hb
          · exact ⟨List.mem_cons_self, hc⟩
          · obtain ⟨hm, hne⟩ := ih List.mem_cons_self hb
            exact ⟨List.mem_cons_of_mem c hm, hne⟩
        · obtain ⟨hm, hne⟩ := ih (List.mem_cons_of_mem t hs) hb
          exact ⟨List.mem_cons_of_mem c hm, hne⟩

theorem slash_notMem_of_mem_segments {s bs : Bytes} (hs : s ∈ segments bs) : slash ∉ s :=
  fun hb => (mem_of_mem_segments hs hb).2 rfl

theorem segments_joinSegments {ss : List Bytes} (hne : ss ≠ []) (hs : ∀ s ∈ ss, slash ∉ s) :
    segments (joinSegments ss) = ss := by
  induction ss with
  | nil => exact absurd rfl hne
  | cons s ss ih =>
    have hs₀ := segments_of_notMem (hs s List.mem_cons_self)
    cases ss with
    | nil => exact hs₀
    | cons t ts =>
      have ht := ih (List.cons_ne_nil t ts) fun u hu => hs u (List.mem_cons_of_mem s hu)
      rw [joinSegments, segments_append_slash, hs₀, ht]
      rfl

theorem mem_joinSegments {b : UInt8} {ss : List Bytes} (h : b ∈ joinSegments ss) :
    b = slash ∨ ∃ s ∈ ss, b ∈ s := by
  induction ss with
  | nil => simp [joinSegments] at h
  | cons s ss ih =>
    cases ss with
    | nil => exact .inr ⟨s, List.mem_cons_self, h⟩
    | cons t ts =>
      rw [joinSegments, List.mem_append, List.mem_cons] at h
      rcases h with h | h | h
      · exact .inr ⟨s, List.mem_cons_self, h⟩
      · exact .inl h
      · obtain h | ⟨u, hu, hb⟩ := ih h
        · exact .inl h
        · exact .inr ⟨u, List.mem_cons_of_mem s hu, hb⟩

def isNothing (s : Bytes) : Bool := (component? s).isNone

theorem isNothing_iff {s : Bytes} : isNothing s = true ↔ s = [] ∨ s = [dot] := by
  unfold isNothing component?
  by_cases h : s = [] ∨ s = [dot]
  · simp [h]
  · rw [if_neg h]
    split <;> simp [h]

theorem filter_of_nothing {ss : List Bytes} (h : ∀ s ∈ ss, isNothing s = true) :
    ∀ s ∈ ss.filter (· ≠ []), s = [dot] := by
  intro s hs
  obtain ⟨hm, hne⟩ := List.mem_filter.1 hs
  exact (isNothing_iff.1 (h s hm)).resolve_left (by simpa using hne)

theorem joinSegments_ne_nil {ss : List Bytes} (hne : ss ≠ [])
    (hlast : ∀ s, ss.getLast? = some s → isNothing s = false) : joinSegments ss ≠ [] := by
  cases ss with
  | nil => exact absurd rfl hne
  | cons s ss =>
    cases ss with
    | nil =>
      intro h
      have h₀ := hlast s rfl
      rw [show s = [] from h] at h₀
      cases h₀
    | cons t ts => simp [joinSegments]

variable {p : Path} {pre junk : List Bytes} {last : Bytes}

theorem exists_parent? (hb : segments (p.bytes.drop p.head.length) = pre ++ last :: junk)
    (hlast : isNothing last = false) (hjunk : ∀ s ∈ junk, isNothing s = true) :
    ∃ kept dropped, pre = kept ++ dropped ∧ (∀ s ∈ dropped, isNothing s = true) ∧
      (∀ s, kept.getLast? = some s → isNothing s = false) ∧
      p.parent? = some ⟨p.head ++ joinSegments kept⟩ := by
  have hr : (pre ++ last :: junk).reverse.dropWhile isNothing = last :: pre.reverse := by
    rw [List.reverse_append, List.reverse_cons, List.append_assoc,
      List.dropWhile_append_of_pos fun s hs => hjunk s (List.mem_reverse.1 hs)]
    simp [hlast]
  have hbody : (segments (p.bytes.drop p.head.length)).reverse.dropWhile isNothing =
      last :: pre.reverse := by rw [hb, hr]
  have hfun : (fun s => (component? s).isNone) = isNothing := rfl
  refine ⟨(pre.reverse.dropWhile isNothing).reverse, (pre.reverse.takeWhile isNothing).reverse,
    ?_, ?_, ?_, by simp only [parent?, hfun, hbody]⟩
  · rw [← List.reverse_append, List.takeWhile_append_dropWhile, List.reverse_reverse]
  · intro s hs
    exact List.all_eq_true.1 List.all_takeWhile s (List.mem_reverse.1 hs)
  · intro s hs
    rw [List.getLast?_reverse] at hs
    have hd := List.head?_dropWhile_not isNothing pre.reverse
    rw [hs] at hd
    simpa using hd

theorem isAbsolute_iff : p.isAbsolute = true ↔ ∃ s ss, segments p.bytes = [] :: s :: ss := by
  unfold isAbsolute
  cases hb : p.bytes with
  | nil => simp [segments]
  | cons b r =>
    by_cases h : b = slash
    · cases hr : segments r with
      | nil => exact absurd hr (segments_ne_nil r)
      | cons s ss => simp [segments, h, hr]
    · cases hr : segments r with
      | nil => exact absurd hr (segments_ne_nil r)
      | cons s ss => simp [segments, h, hr]

theorem isAbsolute_of_segments {s : Bytes} {ss : List Bytes} (h : segments p.bytes = s :: ss)
    (hs : s ≠ []) : p.isAbsolute = false := by
  refine Bool.eq_false_iff.2 fun ha => ?_
  obtain ⟨t, ts, ht⟩ := isAbsolute_iff.1 ha
  rw [h] at ht
  exact hs (List.cons.inj ht).1

theorem head_of_segments {s : Bytes} {ss : List Bytes} (h : segments p.bytes = s :: ss)
    (hs : s ≠ []) (hd : s ≠ [dot]) : p.head = [] := by
  unfold head
  rw [h]
  cases s with
  | nil => exact absurd rfl hs
  | cons b s => simp [hd]

theorem segments_eq_slash {bs s : Bytes} {ss : List Bytes} (h : segments bs = [] :: s :: ss) :
    ∃ r, bs = slash :: r ∧ segments r = s :: ss := by
  cases bs with
  | nil => simp [segments] at h
  | cons b r =>
    by_cases hb : b = slash
    · subst hb
      exact ⟨r, rfl, by simpa [segments] using h⟩
    · cases hr : segments r with
      | nil => exact absurd hr (segments_ne_nil r)
      | cons t ts => simp [segments, hb, hr] at h

theorem segments_eq_dot {bs : Bytes} {ss : List Bytes} (h : segments bs = [dot] :: ss) :
    ∃ r, bs = dot :: r ∧ segments r = [] :: ss := by
  cases bs with
  | nil => simp [segments] at h
  | cons b r =>
    by_cases hb : b = slash
    · simp [segments, hb] at h
    · cases hr : segments r with
      | nil => exact absurd hr (segments_ne_nil r)
      | cons t ts =>
        simp only [segments, if_neg hb, hr, List.cons.injEq] at h
        obtain ⟨⟨rfl, rfl⟩, rfl⟩ := h
        exact ⟨r, rfl, hr⟩

theorem segments_dot_cons {bs : Bytes} {ss : List Bytes} (h : segments bs = [] :: ss) :
    segments (dot :: bs) = [dot] :: ss := by
  have hne : dot ≠ slash := by decide
  rw [segments, if_neg hne, h]

theorem mem_segments_of_mem {b : UInt8} {bs : Bytes} (h : b ∈ bs) :
    b = slash ∨ ∃ s ∈ segments bs, b ∈ s := by
  rw [← joinSegments_segments bs] at h
  exact mem_joinSegments h

end Path

namespace FileSystem

open ResourceManifest.Path

variable {p : Path} {pre junk : List Bytes} {last : Bytes}

theorem directoryOf_eq {d : Path} (h : p.parent? = some d) :
    directoryOf p = if d.bytes = [] then ⟨[dot]⟩ else d := by
  unfold directoryOf
  rw [h]

theorem directoryOf_bytes_ne_nil (p : Path) : (directoryOf p).bytes ≠ [] := by
  unfold directoryOf
  split
  · split
    · exact List.cons_ne_nil _ _
    · next h => exact h
  · exact List.cons_ne_nil _ _

/-- `d` begins as `p` does, and it has the segments `pre` but for nothings at their end. -/
def Trims (d p : Path) (pre : List Bytes) : Prop :=
  d.isAbsolute = p.isAbsolute ∧ ∃ kept dropped tail, pre = kept ++ dropped ∧
    segments d.bytes = kept ++ tail ∧ (∀ s ∈ dropped, isNothing s = true) ∧
    ∀ s ∈ tail, isNothing s = true

section Trims

variable (hlast : isNothing last = false) (hjunk : ∀ s ∈ junk, isNothing s = true)
include hlast hjunk

theorem trims_of_slash {ss : List Bytes} (hseg : segments p.bytes = [] :: (ss ++ last :: junk)) :
    Trims (directoryOf p) p ([] :: ss) := by
  obtain ⟨t, ts, hts⟩ : ∃ t ts, ss ++ last :: junk = t :: ts := by cases ss <;> simp
  have hsl : segments p.bytes = [] :: t :: ts := by rw [hseg, hts]
  obtain ⟨r, hr, hrs⟩ := segments_eq_slash hsl
  have hhead : p.head = [slash] := by rw [head, hsl]
  have hb : segments (p.bytes.drop p.head.length) = ss ++ last :: junk := by
    rw [hhead, hr, hts, ← hrs]
    rfl
  obtain ⟨kept, dropped, rfl, hd, -, hp⟩ := exists_parent? hb hlast hjunk
  have hdir : directoryOf p = ⟨slash :: joinSegments kept⟩ := by
    rw [directoryOf_eq hp, hhead]
    rfl
  have hcons : segments (slash :: joinSegments kept) = [] :: segments (joinSegments kept) :=
    if_pos rfl
  refine ⟨by rw [hdir, isAbsolute_iff.2 ⟨t, ts, hsl⟩]; rfl, ?_⟩
  rw [hdir]
  cases kept with
  | nil => exact ⟨[[]], dropped, [[]], rfl, rfl, hd, by simp [isNothing_iff]⟩
  | cons k kept =>
    have hs : ∀ s ∈ k :: kept, slash ∉ s := by
      intro s hs
      have hm : s ∈ segments p.bytes := by
        rw [hseg]
        exact List.mem_cons_of_mem _ (List.mem_append_left _ (List.mem_append_left _ hs))
      exact slash_notMem_of_mem_segments hm
    refine ⟨[] :: k :: kept, dropped, [], rfl, ?_, hd, by simp⟩
    rw [hcons, segments_joinSegments (List.cons_ne_nil k kept) hs, List.append_nil]

theorem trims_of_dot {ss : List Bytes} (hseg : segments p.bytes = [dot] :: (ss ++ last :: junk)) :
    Trims (directoryOf p) p ([dot] :: ss) := by
  obtain ⟨r, hr, hrs⟩ := segments_eq_dot hseg
  have hhead : p.head = [dot] := by
    unfold head
    rw [hseg]
    rfl
  have hb : segments (p.bytes.drop p.head.length) = ([] :: ss) ++ last :: junk := by
    rw [hhead, hr, List.cons_append, ← hrs]
    rfl
  obtain ⟨kept, dropped, hss, hd, -, hp⟩ := exists_parent? hb hlast hjunk
  have hdir : directoryOf p = ⟨dot :: joinSegments kept⟩ := by
    rw [directoryOf_eq hp, hhead]
    rfl
  refine ⟨by rw [hdir, isAbsolute, isAbsolute, hr]; rfl, ?_⟩
  rw [hdir]
  cases kept with
  | nil =>
    rw [List.nil_append] at hss
    exact ⟨[[dot]], ss, [], rfl, rfl, fun s hs => hd s (hss ▸ List.mem_cons_of_mem [] hs), by simp⟩
  | cons k kept =>
    rw [List.cons_append] at hss
    obtain ⟨rfl, rfl⟩ := List.cons.inj hss
    have hs : ∀ s ∈ [] :: kept, slash ∉ s := by
      intro s hs
      rcases List.mem_cons.1 hs with rfl | hs
      · simp
      · have hm : s ∈ segments p.bytes := by
          rw [hseg]
          exact List.mem_cons_of_mem _ (List.mem_append_left _ (List.mem_append_left _ hs))
        exact slash_notMem_of_mem_segments hm
    refine ⟨[dot] :: kept, dropped, [], rfl, ?_, hd, by simp⟩
    rw [List.append_nil]
    exact segments_dot_cons (segments_joinSegments (List.cons_ne_nil [] kept) hs)

theorem trims_of_name (hseg : segments p.bytes = pre ++ last :: junk)
    (hslash : ∀ ss, pre ≠ [] :: ss) (hdot : ∀ ss, pre ≠ [dot] :: ss) :
    Trims (directoryOf p) p pre := by
  obtain ⟨s, ss, hs, hs₀, hs₁⟩ :
      ∃ s ss, pre ++ last :: junk = s :: ss ∧ s ≠ [] ∧ s ≠ [dot] := by
    cases pre with
    | nil =>
      refine ⟨last, junk, rfl, ?_, ?_⟩ <;> rintro rfl <;> exact absurd hlast (by decide)
    | cons s ss =>
      exact ⟨s, _, rfl, fun h => hslash ss (h ▸ rfl), fun h => hdot ss (h ▸ rfl)⟩
  have habs := isAbsolute_of_segments (hseg.trans hs) hs₀
  have hhead := head_of_segments (hseg.trans hs) hs₀ hs₁
  have hb : segments (p.bytes.drop p.head.length) = pre ++ last :: junk := by
    rw [hhead, List.length_nil, List.drop_zero, hseg]
  obtain ⟨kept, dropped, rfl, hd, hend, hp⟩ := exists_parent? hb hlast hjunk
  rw [hhead, List.nil_append] at hp
  cases kept with
  | nil =>
    have hdir : directoryOf p = ⟨[dot]⟩ := directoryOf_eq hp
    refine ⟨by rw [hdir, habs]; rfl, [], dropped, [[dot]], rfl, by rw [hdir]; rfl, hd, ?_⟩
    simp [isNothing_iff]
  | cons k kept =>
    have hj : joinSegments (k :: kept) ≠ [] := joinSegments_ne_nil (List.cons_ne_nil k kept) hend
    have hdir : directoryOf p = ⟨joinSegments (k :: kept)⟩ := by rw [directoryOf_eq hp, if_neg hj]
    have hnoslash : ∀ s ∈ k :: kept, slash ∉ s := by
      intro s hs
      have hm : s ∈ segments p.bytes := by
        rw [hseg]
        exact List.mem_append_left _ (List.mem_append_left _ hs)
      exact slash_notMem_of_mem_segments hm
    have hsegs := segments_joinSegments (List.cons_ne_nil k kept) hnoslash
    have hk : k ≠ [] := fun hk => hslash (kept ++ dropped) (by rw [hk, List.cons_append])
    refine ⟨?_, k :: kept, dropped, [], rfl, by rw [hdir, hsegs, List.append_nil], hd, by simp⟩
    rw [habs, hdir]
    exact isAbsolute_of_segments hsegs hk

theorem trims_directoryOf (hseg : segments p.bytes = pre ++ last :: junk) :
    Trims (directoryOf p) p pre := by
  cases pre with
  | nil => exact trims_of_name hlast hjunk hseg (by simp) (by simp)
  | cons s ss =>
    by_cases h₀ : s = []
    · exact h₀ ▸ trims_of_slash hlast hjunk (h₀ ▸ hseg)
    · by_cases h₁ : s = [dot]
      · exact h₁ ▸ trims_of_dot hlast hjunk (h₁ ▸ hseg)
      · exact trims_of_name hlast hjunk hseg (fun _ h => h₀ (List.cons.inj h).1)
          fun _ h => h₁ (List.cons.inj h).1

end Trims

/-- A path for the directory in which `p` names something: it begins where `p` does, and takes the
steps in front of the last one of `p`, but for dots at their end. -/
structure IsDirectoryOf (d p : Path) (before : List Bytes) : Prop where
  bytes_ne_nil : d.bytes ≠ []
  isAbsolute : d.isAbsolute = p.isAbsolute
  nul : 0 ∉ p.bytes → 0 ∉ d.bytes
  names : ∃ xs ds es, before = xs ++ ds ∧ d.names = xs ++ es ∧ (∀ s ∈ ds, s = [dot]) ∧
    ∀ s ∈ es, s = [dot]

theorem Trims.isDirectoryOf {d : Path} (h : Trims d p pre) (hd : d.bytes ≠ [])
    (hpre : ∀ s ∈ pre, s ∈ segments p.bytes) : IsDirectoryOf d p (pre.filter (· ≠ [])) := by
  obtain ⟨habs, kept, dropped, tail, rfl, hseg, hdropped, htail⟩ := h
  refine ⟨hd, habs, fun h₀ hm => ?_, kept.filter (· ≠ []), dropped.filter (· ≠ []),
    tail.filter (· ≠ []), List.filter_append _ _, ?_, filter_of_nothing hdropped,
    filter_of_nothing htail⟩
  · obtain h | ⟨s, hs, hb⟩ := mem_segments_of_mem hm
    · exact absurd h (by decide)
    · rw [hseg] at hs
      rcases List.mem_append.1 hs with hs | hs
      · exact h₀ (mem_of_mem_segments (hpre s (List.mem_append_left _ hs)) hb).1
      · rcases isNothing_iff.1 (htail s hs) with rfl | rfl <;> revert hb <;> decide
  · rw [Path.names, hseg, List.filter_append]

theorem isDirectoryOf_directoryOf {before : List Bytes} (h : p.names = before ++ [last])
    (hlast : FileTree.isDots last = false) : IsDirectoryOf (directoryOf p) p before := by
  obtain ⟨as, bs, hseg, rfl, hbs⟩ := List.filter_eq_append_iff.1 h
  obtain ⟨cs, junk, rfl, hcs, -, hjunk⟩ := List.filter_eq_cons_iff.1 hbs
  have hempty : ∀ s ∈ cs, s = [] := fun s hs => by simpa using hcs s hs
  have hcs' : cs.filter (· ≠ []) = [] := List.filter_eq_nil_iff.2 hcs
  have hjunk' : ∀ s ∈ junk, isNothing s = true := by
    intro s hs
    exact isNothing_iff.2 (.inl (by simpa using List.filter_eq_nil_iff.1 hjunk s hs))
  have hl : isNothing last = false := by
    refine Bool.eq_false_iff.2 fun hn => ?_
    rcases isNothing_iff.1 hn with rfl | rfl <;> exact absurd hlast (by decide)
  rw [← List.append_assoc] at hseg
  have hd := (trims_directoryOf hl hjunk' hseg).isDirectoryOf (directoryOf_bytes_ne_nil p)
    fun s hs => hseg ▸ List.mem_append_left _ hs
  rwa [List.filter_append, hcs', List.append_nil] at hd

end FileSystem

end ResourceManifest
