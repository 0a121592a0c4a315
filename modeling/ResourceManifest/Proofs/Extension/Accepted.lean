import ResourceManifest.CommandLine.Arguments
import ResourceManifest.Config
import ResourceManifest.Proofs.Text.Blank

set_option autoImplicit false

namespace ResourceManifest

variable {raw e name : String} {raws allowed : List String}

/-- What is left of an extension as it is given: blanks around it go first, then the dots before
it. Blanks behind these dots stay. -/
def LeftOf (raw e : String) : Prop :=
  ∃ pre dots post : List Char, raw.toList = pre ++ (dots ++ e.toList) ++ post ∧
    (∀ c ∈ pre, isBlank c = true) ∧ (∀ c ∈ post, isBlank c = true) ∧ (∀ c ∈ dots, c = '.') ∧
    (∀ c ∈ (dots ++ e.toList).head?, isBlank c = false) ∧
    (∀ c ∈ (dots ++ e.toList).getLast?, isBlank c = false) ∧ ∀ c ∈ e.toList.head?, c ≠ '.'

theorem normalizeExtension_eq_iff : normalizeExtension raw = e.toList ↔ LeftOf raw e := by
  unfold normalizeExtension LeftOf
  constructor
  · intro h
    obtain ⟨dots, htrim, hdots, hhead⟩ := dropWhile_eq_iff.1 h
    obtain ⟨pre, post, hraw, hpre, hpost, hfirst, hlast⟩ := trim_eq_iff.1 htrim
    exact ⟨pre, dots, post, hraw, hpre, hpost, fun c hc => by simpa using hdots c hc, hfirst, hlast,
      fun c hc => by simpa using hhead c hc⟩
  · intro h
    obtain ⟨pre, dots, post, hraw, hpre, hpost, hdots, hfirst, hlast, hhead⟩ := h
    refine dropWhile_eq_iff.2 ⟨dots, ?_, fun c hc => by simpa using hdots c hc,
      fun c hc => by simpa using hhead c hc⟩
    exact trim_eq_iff.2 ⟨pre, post, hraw, hpre, hpost, hfirst, hlast⟩

theorem mem_normalizeExtensions_iff :
    e ∈ normalizeExtensions raws ↔ e ≠ "" ∧ ∃ raw ∈ raws, LeftOf raw e := by
  unfold normalizeExtensions
  rw [List.filterMap_map, List.mem_filterMap]
  constructor
  · intro h
    obtain ⟨raw, hraw, he⟩ := h
    cases hn : normalizeExtension raw with
    | nil => simp [hn] at he
    | cons c cs =>
      obtain rfl : String.ofList (c :: cs) = e := by simpa [hn] using he
      exact ⟨by simp, raw, hraw, normalizeExtension_eq_iff.1 (by simp [hn])⟩
  · intro h
    obtain ⟨hne, raw, hraw, hleft⟩ := h
    refine ⟨raw, hraw, ?_⟩
    simp [normalizeExtension_eq_iff.2 hleft, hne]

theorem extension?_eq_some_iff : extension? name = some e ↔
    ∃ stem, stem ≠ "" ∧ e ≠ "" ∧ '.' ∉ e.toList ∧ name = stem ++ "." ++ e := by
  unfold extension?
  constructor
  · intro h
    split at h
    · next s stem c cs hs =>
      obtain rfl : String.ofList (c :: cs) = e := by simpa using h
      obtain ⟨hname, hdot⟩ := splitLast_eq_some_iff.1 hs
      refine ⟨String.ofList (s :: stem), by simp, by simp, by simpa using hdot, ?_⟩
      refine String.toList_injective ?_
      simp [hname]
    · simp at h
  · intro h
    obtain ⟨stem, hstem, he, hdot, rfl⟩ := h
    have hs : splitLast '.' (stem ++ "." ++ e).toList = some (stem.toList, e.toList) :=
      splitLast_eq_some_iff.2 ⟨by simp, hdot⟩
    rw [hs]
    cases hstem' : stem.toList with
    | nil => simp at hstem'; exact absurd hstem' hstem
    | cons s ss =>
      cases he' : e.toList with
      | nil => simp at he'; exact absurd he' he
      | cons c cs => simp [← he']

theorem isAllowed_iff_extension? : isAllowed name allowed = true ↔
    ∃ e, extension? name = some e ∧ e ∈ allowed := by
  unfold isAllowed
  cases extension? name with
  | none => simp
  | some e => simp

theorem isAllowed_iff : isAllowed name allowed = true ↔
    ∃ stem e, stem ≠ "" ∧ e ≠ "" ∧ e ∈ allowed ∧ '.' ∉ e.toList ∧ name = stem ++ "." ++ e := by
  rw [isAllowed_iff_extension?]
  constructor
  · intro h
    obtain ⟨e, he, hmem⟩ := h
    obtain ⟨stem, hstem, hne, hdot, hname⟩ := extension?_eq_some_iff.1 he
    exact ⟨stem, e, hstem, hne, hmem, hdot, hname⟩
  · intro h
    obtain ⟨stem, e, hstem, hne, hmem, hdot, hname⟩ := h
    exact ⟨e, extension?_eq_some_iff.2 ⟨stem, hstem, hne, hdot, hname⟩, hmem⟩

theorem isAllowed_singleton_of_dot (name : String) (h : '.' ∈ e.toList) :
    isAllowed name [e] = false := by
  refine Bool.eq_false_iff.2 fun ha => ?_
  obtain ⟨stem, e', -, -, hmem, hdot, -⟩ := isAllowed_iff.1 ha
  rw [List.mem_singleton.1 hmem] at hdot
  exact hdot h

theorem isAllowed_of_notMem_tail (h : '.' ∉ name.toList.tail) : isAllowed name allowed = false := by
  refine Bool.eq_false_iff.2 fun ha => h ?_
  obtain ⟨stem, e, hstem, -, -, -, rfl⟩ := isAllowed_iff.1 ha
  rw [String.toList_append, String.toList_append, List.append_assoc,
    List.tail_append_of_ne_nil (by simpa using hstem)]
  simp

theorem selectExtensions_ne_nil (raws : List String) (preset : Option Preset) :
    selectExtensions raws preset ≠ [] := by
  unfold selectExtensions
  split
  · cases preset.getD .assets <;> simp [Preset.extensions]
  · simp

theorem selectExtensions_eq (raws : List String) (preset : Option Preset) :
    selectExtensions raws preset =
      if normalizeExtensions raws ≠ [] then normalizeExtensions raws
      else (preset.getD .assets).extensions := by
  unfold selectExtensions
  split
  · next h => simp [h]
  · next h => simp [h]

/-- A command line and a configuration that give the same extensions and the same preset select by
one list, which is never empty: what is left of the extensions, or the preset's. A name is accepted
if it ends in one of these behind a dot that is neither its first character nor followed by another;
so an extension with a dot accepts no name, and neither does a name without a dot or with one at its
beginning only. -/
theorem allowed_alike (a : Arguments) (s : JobSettings)
    (hraw : s.extensions?.join.getD [] = a.extensions)
    (hpreset : s.preset?.join.getD .assets = a.preset) :
    let allowed := a.job.allowed
    s.job.allowed = allowed ∧ allowed ≠ [] ∧
    (allowed = if normalizeExtensions a.extensions ≠ [] then normalizeExtensions a.extensions
      else a.preset.extensions) ∧
    (∀ e, e ∈ normalizeExtensions a.extensions ↔ e ≠ "" ∧ ∃ raw ∈ a.extensions, LeftOf raw e) ∧
    (∀ name, isAllowed name allowed = true ↔
      ∃ stem e, stem ≠ "" ∧ e ≠ "" ∧ e ∈ allowed ∧ '.' ∉ e.toList ∧ name = stem ++ "." ++ e) ∧
    (∀ e ∈ allowed, '.' ∈ e.toList → ∀ name, isAllowed name [e] = false) ∧
    ∀ name : String, '.' ∉ name.toList.tail → isAllowed name allowed = false := by
  intro allowed
  have heq : s.job.allowed = allowed := by
    simp only [JobSettings.job, allowed, Arguments.job, hraw, selectExtensions_eq, hpreset,
      Option.getD_some]
  refine ⟨heq, selectExtensions_ne_nil _ _, selectExtensions_eq _ _,
    fun e => mem_normalizeExtensions_iff, fun name => isAllowed_iff, ?_, ?_⟩
  · exact fun e _ h name => isAllowed_singleton_of_dot name h
  · exact fun name h => isAllowed_of_notMem_tail h

theorem allowed_alike_given :
    let a : Arguments := { extensions := [" ..PNG\t", "tar.gz", ". ", ""], preset := .images }
    let s : JobSettings :=
      { extensions? := some (some [" ..PNG\t", "tar.gz", ". ", ""]), preset? := some (some .images) }
    let none : JobSettings := { extensions? := some (some [".", " "]) }
    s.job.allowed = a.job.allowed ∧ a.job.allowed = ["PNG", "tar.gz"] ∧
    isAllowed "a.b.PNG" s.job.allowed = true ∧
    (∀ name, isAllowed name ["tar.gz"] = false) ∧ isAllowed ".PNG" s.job.allowed = false ∧
    none.job.allowed = ["jpg", "png", "gif", "mp3", "wav", "ogg"] := by
  intro a s none
  obtain ⟨heq, -, -, -, hname, hdot, hstart⟩ := allowed_alike a s rfl rfl
  obtain ⟨hnone, -, hlist, -⟩ := allowed_alike { extensions := [".", " "] } none rfl rfl
  have hallowed : a.job.allowed = ["PNG", "tar.gz"] := by decide +kernel
  rw [heq, hnone, hlist]
  refine ⟨rfl, hallowed, (hname _).2 ⟨"a.b", "PNG", ?_⟩, hdot "tar.gz" ?_ ?_, hstart _ ?_, ?_⟩
  · rw [hallowed]
    decide +kernel
  · simp [hallowed]
  · decide
  · decide
  · decide +kernel

end ResourceManifest
