import Mathlib.Data.List.Induction
import ResourceManifest.Proofs.Config.Rendering
import ResourceManifest.Proofs.Yaml.Refusing
import ResourceManifest.Run

set_option autoImplicit false

namespace ResourceManifest

namespace Config

open Yaml Yaml.Decoder

section Entries

variable {d : Document} {p : Place} {fuel jumps : Nat} {s : JobSettings} {m : Mark}
  {style : ScalarStyle} {key : String} {rest es : List Event} {x : JobSettings × Progress}

theorem takes_texts (expected : String) (v : Content) :
    Takes (list (text expected)) (Reading.contentEvents v) := by
  refine takes_content (fun style s => .of_first rfl fun m alias? d p t x hx => ?_)
    (fun ss => (decodes_texts expected ss).takes) v
  have hx := mapError_eq_ok hx
  simp only at hx
  split at hx
  · obtain rfl := Except.ok.inj hx
    rfl
  · cases hx

theorem allows_read (s : JobSettings) (t : Setting) (v : Content) :
    Allows (s.read t) (fun s' => ∀ u, s'.gives u = (u == t || s.gives u))
      (Reading.contentEvents v) := by
  unfold JobSettings.read
  cases t with
  | root | output =>
    exact (takes_option (takes_text "path string") v).map fun _ _ u => by cases u <;> rfl
  | extensions =>
    exact (takes_option (takes_texts "a string") v).map fun _ _ u => by cases u <;> rfl
  | preset =>
    exact (takes_option (takes_variant JobSettings.presets) v).map fun _ _ u => by cases u <;> rfl
  | mode => exact (takes_variant JobSettings.writeModes v).map fun _ _ u => by cases u <;> rfl
  | followLinks | respectIgnore => exact (takes_bool v).map fun _ _ u => by cases u <;> rfl

theorem member_eq_ok {decode : Decoder JobSettings}
    (hcheck : JobSettings.record.checkKey key = .ok ())
    (hmember : JobSettings.record.member key s = .ok (some decode)) :
    ∃ t, Setting.ofName? key = some t ∧ s.gives t = false ∧ decode = s.read t := by
  cases ht : Setting.ofName? key with
  | none => simp [JobSettings.record, ht] at hcheck
  | some t =>
    cases hgives : s.gives t with
    | true => simp [JobSettings.record, ht, hgives] at hmember
    | false =>
      refine ⟨t, rfl, hgives, ?_⟩
      simpa [JobSettings.record, ht, hgives] using hmember.symm

theorem member_ne_none (hcheck : JobSettings.record.checkKey key = .ok ()) :
    JobSettings.record.member key s ≠ .ok none := by
  cases ht : Setting.ofName? key with
  | none => simp [JobSettings.record, ht] at hcheck
  | some t =>
    simp only [JobSettings.record, ht]
    split <;> simp

theorem members_setting (hx : members JobSettings.record d p fuel s
      ⟨⟨.scalar none style key, m⟩ :: rest, jumps⟩ = .ok x) :
    ∃ t n y, Setting.ofName? key = some t ∧ s.gives t = false ∧
      next (s.read t) d (.field p key) ⟨rest, jumps⟩ = .ok y ∧
      members JobSettings.record d p n y.1 y.2 = .ok x := by
  obtain ⟨n, decode, y, hcheck, hmember, hy, hx⟩ := members_key member_ne_none hx
  obtain ⟨t, ht, hgives, rfl⟩ := member_eq_ok hcheck hmember
  exact ⟨t, n, y, ht, hgives, hy, hx⟩

theorem members_fields (fs : List Field) (hes : es.map Event.kind = fs.flatMap Reading.fieldEvents)
    (hx : members JobSettings.record d p fuel s ⟨es ++ rest, jumps⟩ = .ok x) :
    ∃ n s', (∀ f ∈ fs, ∃ t, Setting.ofName? f.key = some t ∧ s'.gives t = true) ∧
      (∀ t, s.gives t = true → s'.gives t = true) ∧
      members JobSettings.record d p n s' ⟨rest, jumps⟩ = .ok x := by
  induction fs generalizing fuel s es with
  | nil =>
    obtain rfl := List.map_eq_nil_iff.1 hes
    exact ⟨fuel, s, by simp, fun _ h => h, hx⟩
  | cons f fs ih =>
    rw [List.flatMap_cons, Reading.fieldEvents, List.append_assoc, List.singleton_append] at hes
    obtain ⟨m, es', rfl, hes'⟩ := exists_event_cons hes
    obtain ⟨es₁, es₂, rfl, hes₁, hes₂⟩ := List.map_eq_append_iff.1 hes'
    rw [List.cons_append, List.append_assoc] at hx
    obtain ⟨t, n, ⟨s₁, _⟩, ht, -, hy, hx⟩ := members_setting hx
    obtain ⟨hgives, rfl⟩ := (allows_read s t f.value).next hes₁ hy
    obtain ⟨n', s', hall, hkept, hx⟩ := ih hes₂ hx
    have hkept' : ∀ u, (u == t || s.gives u) = true → s'.gives u = true := fun u hu =>
      hkept u ((hgives u).trans hu)
    refine ⟨n', s', ?_, fun u hu => hkept' u (by rw [hu, Bool.or_true]), hx⟩
    intro g hg
    rcases List.mem_cons.1 hg with rfl | hg
    · exact ⟨t, ht, hkept' t (by rw [beq_self_eq_true, Bool.true_or])⟩
    · exact hall g hg

theorem entry_fields {fs : List Field} {k : EventKind} {alias? : Option Mark}
    (hes : es.map Event.kind = fs.flatMap Reading.fieldEvents ++ [k])
    (hx : Decoder.record JobSettings.record ⟨⟨.mappingStart none, m⟩, alias?⟩ d p
      ⟨es ++ rest, jumps⟩ = .ok x) :
    ∃ n s m', (∀ f ∈ fs, ∃ t, Setting.ofName? f.key = some t ∧ s.gives t = true) ∧
      members JobSettings.record d p n s ⟨⟨k, m'⟩ :: rest, jumps⟩ = .ok x := by
  obtain ⟨es₁, es₂, rfl, hes₁, hes₂⟩ := List.map_eq_append_iff.1 hes
  obtain ⟨m', es', rfl, hes'⟩ := exists_event_cons hes₂
  obtain rfl := List.map_eq_nil_iff.1 hes'
  have hx := mapError_eq_ok hx
  simp only [List.append_assoc] at hx
  obtain ⟨n, s, hall, -, hx⟩ := members_fields fs hes₁ hx
  exact ⟨n, s, m', hall, hx⟩

theorem takes_entry (fs : List Field) :
    Takes (Decoder.record JobSettings.record) (Reading.recordEvents fs) := by
  refine ⟨rfl, fun m alias? d p jumps es rest x hes hx => ⟨trivial, ?_⟩⟩
  obtain ⟨n, s, m', -, hx⟩ := entry_fields hes hx
  cases n with
  | zero => cases hx
  | succ n =>
    obtain rfl := Except.ok.inj hx
    rfl

/-- A key that an entry with these members must not have: that of no setting, or one that is there
already. -/
def IsMisfit (fs : List Field) (key : String) : Prop :=
  key ∉ Setting.all.map Setting.name ∨ key ∈ fs.map Field.key

theorem name_of_ofName? {t : Setting} (h : Setting.ofName? key = some t) : t.name = key :=
  beq_iff_eq.1 (List.find?_some (p := fun s : Setting => s.name == key) h)

theorem refuses_entry {fs : List Field} {k : Key} (hmisfit : IsMisfit fs k.text) :
    Refuses (Decoder.record JobSettings.record) (Reading.keyEvents fs k) := by
  refine ⟨rfl, fun m alias? d p jumps es rest x hes hx => ?_⟩
  obtain ⟨n, s, m', hall, hx⟩ := entry_fields hes hx
  obtain ⟨t, -, -, ht, hgives, -⟩ := members_setting hx
  rcases hmisfit with hunknown | htwice
  · have hname : t.name ∈ Setting.all.map Setting.name :=
      List.mem_map_of_mem (List.mem_of_find?_eq_some ht)
    exact absurd (name_of_ofName? ht ▸ hname) hunknown
  · obtain ⟨f, hf, hkey⟩ := List.mem_map.1 htwice
    obtain ⟨t', ht', hgives'⟩ := hall f hf
    rw [hkey, ht] at ht'
    obtain rfl := Option.some.inj ht'
    cases hgives.symm.trans hgives'

end Entries

theorem refuses_config {rs : List (List Field)} {fs : List Field} {k : Key}
    (hmisfit : IsMisfit fs k.text) : Refuses (Decoder.record record)
      (Reading.openingEvents "jobs" rs ++ Reading.keyEvents fs k) := by
  have hentries : ∀ ks ∈ rs.map Reading.recordEvents,
      Takes (Decoder.record JobSettings.record) ks := by
    intro ks hks
    obtain ⟨fs', -, rfl⟩ := List.mem_map.1 hks
    exact takes_entry fs'
  have hlist : Refuses (map some (list (Decoder.record JobSettings.record))) _ :=
    (refuses_list hentries (refuses_entry hmisfit)).map fun _ => id
  have hall : Refuses (Decoder.record record)
      (.mappingStart none :: .scalar none .plain "jobs" :: _) := refuses_record rfl hlist
  simpa only [Reading.openingEvents, List.flatMap_def, List.cons_append, List.nil_append]
    using hall

/-- No job is taken from such a configuration, and a run that names it leaves all files as they
are. -/
def Refused (bs : Bytes) : Prop :=
  ∃ flaw, (∀ path, read path bs = .error (.config path (.flaw flaw))) ∧
    ∀ (fs : FileSystem) (a : Arguments) (p : Path), a.configFile? = some p →
      fs.read p = .ok bs →
      Run.arguments fs a = (fs, ⟨[], .error (.loading p (.config p (.flaw flaw)))⟩)

theorem refused_of_decode {bs : Bytes} {f : Flaw}
    (h : Yaml.decode (Decoder.record record) bs = .error f) : Refused bs := by
  have hread : ∀ path, read path bs = .error (.config path (.flaw f)) := by
    intro path
    rw [read, decode, h]
    rfl
  refine ⟨f, hread, fun fs a p ha hp => ?_⟩
  simp only [Run.arguments, Arguments.jobs, ha, load, hp, hread]

theorem refused_writeTo (l : Layout) {before : List (List Field)} {fields : List Field} {k : Key}
    {c : Char} {r : List Char} (hbefore : [] ∉ before)
    (hplain : ∀ fs ∈ before ++ [fields], ∀ f ∈ fs, f.IsPlain) (hk : k.IsPlain)
    (hmisfit : IsMisfit fields k.text) (hc : isGap c = true)
    (hr : ∀ d ∈ c :: r, isTextChar d = true) :
    Refused (Utf8.encodeChars (l.writeTo "jobs" before fields k (c :: r))) := by
  obtain ⟨f, hf⟩ := decode_writeTo l isWord_jobs hbefore hplain hk hc hr (refuses_config hmisfit)
  exact refused_of_decode hf

/-- An entry with a key that no job has, or with a key twice. -/
def HasMisfit (fs : List Field) : Prop :=
  (∃ f ∈ fs, f.key ∉ Setting.all.map Setting.name) ∨ ¬ (fs.map Field.key).Nodup

theorem exists_misfit_of_not_nodup {fs : List Field} (h : ¬ (fs.map Field.key).Nodup) :
    ∃ before f after, fs = before ++ f :: after ∧ f.key ∈ before.map Field.key := by
  induction fs using List.reverseRecOn with
  | nil => exact absurd List.nodup_nil h
  | append_singleton fs f ih =>
    by_cases hfs : (fs.map Field.key).Nodup
    · refine ⟨fs, f, [], rfl, ?_⟩
      by_contra hnot
      rw [List.map_append, List.map_singleton] at h
      refine h (List.nodup_append.2 ⟨hfs, by simp, fun key hkey key' hkey' heq => ?_⟩)
      rw [List.mem_singleton.1 hkey'] at heq
      exact hnot (heq ▸ hkey)
    · obtain ⟨before, g, after, rfl, hg⟩ := ih hfs
      exact ⟨before, g, after ++ [f], by simp, hg⟩

theorem HasMisfit.exists {fs : List Field} (h : HasMisfit fs) :
    ∃ before f after, fs = before ++ f :: after ∧ IsMisfit before f.key := by
  rcases h with ⟨f, hf, hunknown⟩ | htwice
  · obtain ⟨before, after, rfl⟩ := List.append_of_mem hf
    exact ⟨before, f, after, rfl, .inl hunknown⟩
  · obtain ⟨before, f, after, hfs, hkey⟩ := exists_misfit_of_not_nodup htwice
    exact ⟨before, f, after, hfs, .inr hkey⟩

/-- One entry with a misfit is enough for a configuration to be refused. The entries before it may
be anything; the misfit may be written with or without quotes, and whatever stands behind its colon,
its value, more members or more entries, makes no difference. -/
theorem refused_of_misfit (l : Layout) :
    (∀ (before : List (List Field)) (fields : List Field) (k : Key) (c : Char) (r : List Char),
      [] ∉ before → (∀ fs ∈ before ++ [fields], ∀ f ∈ fs, f.IsPlain) → k.IsPlain →
      IsMisfit fields k.text → isGap c = true → (∀ d ∈ c :: r, isTextChar d = true) →
      Refused (Utf8.encodeChars (l.writeTo "jobs" before fields k (c :: r)))) ∧
    ∀ entries : List (List Field), [] ∉ entries → (∀ fs ∈ entries, ∀ f ∈ fs, f.IsPlain) →
      (∃ fs ∈ entries, HasMisfit fs) → Refused (Utf8.encodeChars (l.write "jobs" entries)) := by
  refine ⟨fun before fields k c r hbefore hplain hk hmisfit hc hr =>
    refused_writeTo l hbefore hplain hk hmisfit hc hr, fun entries hentries hplain hsome => ?_⟩
  obtain ⟨fs, hfs, hsome⟩ := hsome
  obtain ⟨before, after, rfl⟩ := List.append_of_mem hfs
  obtain ⟨fields, f, more, rfl, hmisfit⟩ := hsome.exists
  have htext := isTextChar_of_mem_write l isWord_jobs hplain
  rw [Layout.write_eq_writeTo] at htext ⊢
  refine refused_writeTo l (fun h => hentries (List.mem_append_left _ h)) ?_ ?_ hmisfit rfl
    fun d hd => htext d (l.mem_writeTo hd)
  · intro fs hfs g hg
    rcases List.mem_append.1 hfs with hfs | hfs
    · exact hplain fs (List.mem_append_left _ hfs) g hg
    · obtain rfl := List.mem_singleton.1 hfs
      exact hplain _ (List.mem_append_right _ List.mem_cons_self) g (List.mem_append_left _ hg)
  · exact (hplain _ (List.mem_append_right _ List.mem_cons_self) f
      (List.mem_append_right _ List.mem_cons_self)).key.isPlain

theorem refused_of_misfit_between :
    let before : List (List Field) := [[⟨"root", .quoted "a"⟩, ⟨"write_mode", .word "atomic"⟩]]
    let fields : List Field := [⟨"output_file", .quoted "b.json"⟩]
    let r := "[[1], 2]\n    root: \"b\"\n  - root: \"c\"\n".toList
    let text := "jobs:\n" ++
      "  - root: \"a\"\n" ++
      "    write_mode: atomic\n" ++
      "  - output_file: \"b.json\"\n" ++
      "    \"max d\\U000000E9pth\": [[1], 2]\n" ++
      "    root: \"b\"\n" ++
      "  - root: \"c\"\n"
    let tree := FileTree.empty.put [Utf8.encode "jobs.yaml"] (.file 0o644 (Utf8.encode text))
    let fs : FileSystem := { tree }
    Layout.writeTo ⟨2, true⟩ "jobs" before fields (.quoted "max dépth") (' ' :: r) = text.toList ∧
      (∃ f, Run.arguments fs { configFile? := some (.ofString "jobs.yaml") } =
        (fs, ⟨[], .error (.loading (.ofString "jobs.yaml")
          (.config (.ofString "jobs.yaml") (.flaw f)))⟩)) ∧
      Refused (Utf8.encodeChars (Layout.write ⟨0, false⟩ "jobs"
        [[⟨"root", .quoted "a"⟩],
          [⟨"output_file", .quoted "b"⟩, ⟨"root", .word "null"⟩, ⟨"output_file", .quoted "b"⟩]])) := by
  intro before fields r text tree fs
  have htext : Layout.writeTo ⟨2, true⟩ "jobs" before fields (.quoted "max dépth") (' ' :: r) =
      text.toList := by decide +kernel
  refine ⟨htext, ?_, ?_⟩
  · obtain ⟨f, -, hrun⟩ := (refused_of_misfit ⟨2, true⟩).1 before fields (.quoted "max dépth") ' ' r
      (by decide) (by decide +kernel) nofun (.inl (by decide)) rfl
      (List.all_eq_true.1 (by decide))
    exact ⟨f, hrun fs _ (.ofString "jobs.yaml") rfl (by rw [htext]; decide +kernel)⟩
  · exact (refused_of_misfit ⟨0, false⟩).2 _ (by decide) (by decide +kernel)
      ⟨_, List.mem_cons_of_mem _ List.mem_cons_self, .inr (by decide)⟩

end Config

end ResourceManifest
