import ResourceManifest.Config
import ResourceManifest.Proofs.Yaml.Decoding

set_option autoImplicit false

namespace ResourceManifest

namespace Config

open Yaml

/-- A setting of a job as it is written. The names of presets and of modes stand with or without
quotes. -/
inductive Entry where
  | root (text : String)
  | output (text : String)
  | extensions (texts : List String)
  | preset (p : Preset) (isQuoted : Bool)
  | mode (m : WriteMode) (isQuoted : Bool)
  | followLinks (b : Bool)
  | respectIgnore (b : Bool)
  deriving DecidableEq, Repr

namespace Entry

def setting : Entry → Setting
  | root _ => .root
  | output _ => .output
  | extensions _ => .extensions
  | preset _ _ => .preset
  | mode _ _ => .mode
  | followLinks _ => .followLinks
  | respectIgnore _ => .respectIgnore

def name (isQuoted : Bool) (s : String) : Content := if isQuoted then .quoted s else .word s

def truth (b : Bool) : Content := .word (if b then "true" else "false")

def value : Entry → Content
  | root t => .quoted t
  | output t => .quoted t
  | extensions ts => .flow ts
  | preset p isQuoted => name isQuoted p.name
  | mode m isQuoted => name isQuoted m.name
  | followLinks b => truth b
  | respectIgnore b => truth b

def field (e : Entry) : Field := ⟨e.setting.name, e.value⟩

def give (s : JobSettings) : Entry → JobSettings
  | root t => { s with root? := some (some t) }
  | output t => { s with output? := some (some t) }
  | extensions ts => { s with extensions? := some (some ts) }
  | preset p _ => { s with preset? := some (some p) }
  | mode m _ => { s with mode? := some m }
  | followLinks b => { s with followLinks? := some b }
  | respectIgnore b => { s with respectIgnore? := some b }

/-- Whether the setting is that of the job; a preset goes for nothing beside extensions. -/
def Agrees (job : Job) : Entry → Prop
  | root t => Path.ofString t = job.root
  | output t => Path.ofString t = job.output
  | extensions ts => ts = job.allowed
  | preset _ _ => True
  | mode m _ => m = job.mode
  | followLinks b => b = job.followLinks
  | respectIgnore b => b = job.respectIgnore

end Entry

/-- The text of a configuration with these settings for each job. -/
def render (l : Layout) (ess : List (List Entry)) : String :=
  String.ofList (l.write "jobs" (ess.map (·.map Entry.field)))

/-- The settings are those of the job, none of them twice. What is not written is the default. -/
structure Renders (es : List Entry) (job : Job) : Prop where
  once : (es.map Entry.setting).Nodup
  agree : ∀ e ∈ es, e.Agrees job
  extensions : .extensions ∈ es.map Entry.setting
  noRoot : .root ∉ es.map Entry.setting → job.root = ({} : Job).root
  noOutput : .output ∉ es.map Entry.setting → job.output = ({} : Job).output
  noMode : .mode ∉ es.map Entry.setting → job.mode = ({} : Job).mode
  noFollowLinks : .followLinks ∉ es.map Entry.setting → job.followLinks = ({} : Job).followLinks
  noRespectIgnore :
    .respectIgnore ∉ es.map Entry.setting → job.respectIgnore = ({} : Job).respectIgnore

theorem isWord_jobs : IsWord "jobs" := by decide

theorem isWord_name (s : Setting) : IsWord s.name := by cases s <;> decide +kernel

theorem isPlain_field (e : Entry) : e.field.IsPlain := by
  refine ⟨isWord_name e.setting, fun s hs => ?_⟩
  have hs : e.value = .word s := hs
  cases e with
  | preset p isQuoted =>
    cases isQuoted <;> cases hs
    cases p <;> decide
  | mode m isQuoted =>
    cases isQuoted <;> cases hs
    cases m <;> decide
  | followLinks b | respectIgnore b =>
    cases hs
    cases b <;> decide
  | _ => cases hs

section Decoding

open Yaml.Decoder

theorem decodes_texts (expected : String) (ss : List String) :
    Decodes (list (text expected)) (Reading.contentEvents (.flow ss)) ss := by
  have hitems :
      List.Forall₂ (Decodes (text expected)) (ss.map fun s => [Reading.itemEvent s]) ss := by
    induction ss with
    | nil => exact .nil
    | cons s ss ih => exact .cons (decodes_text expected .doubleQuoted s) ih
  have hflat : (ss.map fun s => [Reading.itemEvent s]).flatten = ss.map Reading.itemEvent := by
    rw [← List.flatMap_def, ← List.map_eq_flatMap]
  have hlist := decodes_list hitems
  rwa [hflat] at hlist

theorem decodes_name {α : Type} {v : Variants α} {a : α} (h : v.find (v.name a) = .ok a)
    (isQuoted : Bool) :
    Decodes (variant v) (Reading.contentEvents (Entry.name isQuoted (v.name a))) a := by
  cases isQuoted
  · exact decodes_variant h .plain
  · exact decodes_variant h .doubleQuoted

theorem decodes_truth (b : Bool) : Decodes bool (Reading.contentEvents (Entry.truth b)) b :=
  decodes_bool b

theorem decodes_value (s : JobSettings) (e : Entry) :
    Decodes (s.read e.setting) (Reading.contentEvents e.value) (e.give s) := by
  cases e with
  | root t =>
    exact ((decodes_text "path string" .doubleQuoted t).option rfl).map fun v =>
      { s with root? := some v }
  | output t =>
    exact ((decodes_text "path string" .doubleQuoted t).option rfl).map fun v =>
      { s with output? := some v }
  | extensions ts =>
    exact (Decodes.option (decodes_texts "a string" ts) rfl).map fun v =>
      { s with extensions? := some v }
  | preset p isQuoted =>
    have hname := decodes_name (v := JobSettings.presets) (a := p) (by cases p <;> rfl) isQuoted
    have hoption : Decodes (option (variant JobSettings.presets))
        (Reading.contentEvents (Entry.name isQuoted p.name)) (some p) := by
      cases isQuoted
      · exact Decodes.option hname (by cases p <;> decide)
      · exact Decodes.option hname rfl
    exact hoption.map fun v => { s with preset? := some v }
  | mode m isQuoted =>
    have hname := decodes_name (v := JobSettings.writeModes) (a := m) (by cases m <;> rfl) isQuoted
    exact hname.map fun v => { s with mode? := some v }
  | followLinks b => exact (decodes_truth b).map fun v => { s with followLinks? := some v }
  | respectIgnore b => exact (decodes_truth b).map fun v => { s with respectIgnore? := some v }

theorem ofName?_name (s : Setting) : Setting.ofName? s.name = some s := by cases s <;> decide

theorem gives_give (s : JobSettings) (e : Entry) (t : Setting) :
    (e.give s).gives t = (t == e.setting || s.gives t) := by
  cases e <;> cases t <;> rfl

theorem gathers_entries {es : List Entry} {s : JobSettings} (honce : (es.map Entry.setting).Nodup)
    (hnone : ∀ e ∈ es, s.gives e.setting = false) :
    Gathers JobSettings.record (es.map fun e => fieldMember e.field) s (es.foldl Entry.give s) := by
  induction es generalizing s with
  | nil => exact .nil s
  | cons e es ih =>
    obtain ⟨hnot, honce⟩ := List.nodup_cons.1 honce
    have hname : Setting.ofName? e.field.key = some e.setting := ofName?_name e.setting
    have hfree := hnone e List.mem_cons_self
    refine .cons (by simp only [JobSettings.record, hname]) ?_ (decodes_value s e) (ih honce ?_)
    · simp only [JobSettings.record, hname, hfree, Bool.false_eq_true, if_false]
    · intro e' he'
      have hne : e'.setting ≠ e.setting := fun h => hnot (h ▸ List.mem_map_of_mem he')
      rw [gives_give, hnone e' (List.mem_cons_of_mem e he'), Bool.or_false]
      exact beq_eq_false_iff_ne.2 hne

theorem decodes_entries {es : List Entry} (honce : (es.map Entry.setting).Nodup) :
    Decodes (Decoder.record JobSettings.record) (Reading.recordEvents (es.map Entry.field))
      (es.foldl Entry.give {}) := by
  rw [recordEvents_eq, List.map_map]
  exact (gathers_entries (s := {}) honce fun e _ => by cases e <;> rfl).decodes

theorem decodes_config {ess : List (List Entry)}
    (honce : ∀ es ∈ ess, (es.map Entry.setting).Nodup) :
    Decodes (Decoder.record record) (Reading.documentEvents "jobs" (ess.map (·.map Entry.field)))
      (some (ess.map (·.foldl Entry.give {}))) := by
  have hjobs : List.Forall₂ (Decodes (Decoder.record JobSettings.record))
      ((ess.map (·.map Entry.field)).map Reading.recordEvents)
      (ess.map (·.foldl Entry.give {})) := by
    induction ess with
    | nil => exact .nil
    | cons es ess ih =>
      exact .cons (decodes_entries (honce es List.mem_cons_self))
        (ih fun es' h => honce es' (List.mem_cons_of_mem es h))
  rw [documentEvents_eq]
  exact (Gathers.cons rfl rfl ((decodes_list hjobs).map some) (.nil _)).decodes

end Decoding

namespace Renders

variable {es : List Entry} {job : Job}

def Has (job : Job) (s : JobSettings) : Setting → Prop
  | .root => (s.root?.join.map Path.ofString).getD defaultRoot = job.root
  | .output => (s.output?.join.map Path.ofString).getD defaultOutput = job.output
  | .extensions => s.extensions?.join.getD [] = job.allowed
  | .preset => True
  | .mode => s.mode?.getD .direct = job.mode
  | .followLinks => s.followLinks?.getD false = job.followLinks
  | .respectIgnore => s.respectIgnore?.getD false = job.respectIgnore

theorem has_give_of_ne {s : JobSettings} {e : Entry} {t : Setting} (ht : e.setting ≠ t)
    (hs : Has job s t) : Has job (e.give s) t := by
  cases e <;> cases t <;> first | exact hs | exact absurd rfl ht

theorem has_give {e : Entry} (he : e.Agrees job) (s : JobSettings) :
    Has job (e.give s) e.setting := by
  cases e <;> exact he

theorem has_foldl (hes : ∀ e ∈ es, e.Agrees job) {s : JobSettings} {t : Setting}
    (hnone : t ∉ es.map Entry.setting → Has job s t) : Has job (es.foldl Entry.give s) t := by
  induction es generalizing s with
  | nil => exact hnone List.not_mem_nil
  | cons e es ih =>
    refine ih (fun e' he' => hes e' (List.mem_cons_of_mem e he')) fun hmore => ?_
    by_cases he : e.setting = t
    · exact he ▸ has_give (hes e List.mem_cons_self) s
    · refine has_give_of_ne he (hnone ?_)
      rw [List.map_cons, List.mem_cons, not_or]
      exact ⟨Ne.symm he, hmore⟩

theorem has_none (h : Renders es job) {t : Setting} (ht : t ∉ es.map Entry.setting) :
    Has job {} t := by
  cases t with
  | root => exact (h.noRoot ht).symm
  | output => exact (h.noOutput ht).symm
  | extensions => exact absurd h.extensions ht
  | preset => trivial
  | mode => exact (h.noMode ht).symm
  | followLinks => exact (h.noFollowLinks ht).symm
  | respectIgnore => exact (h.noRespectIgnore ht).symm

theorem job_foldl (h : Renders es job) (hne : job.allowed ≠ [])
    (hnormal : normalizeExtensions job.allowed = job.allowed) :
    (es.foldl Entry.give {}).job = job := by
  have hhas := fun t => has_foldl h.agree (h.has_none (t := t))
  have hallowed := selectExtensions_of_normal hne hnormal
  have hroot : Option.getD _ _ = job.root := hhas .root
  have houtput : Option.getD _ _ = job.output := hhas .output
  have hextensions : Option.getD _ _ = job.allowed := hhas .extensions
  have hmode : Option.getD _ _ = job.mode := hhas .mode
  have hfollow : Option.getD _ _ = job.followLinks := hhas .followLinks
  have hignore : Option.getD _ _ = job.respectIgnore := hhas .respectIgnore
  simp only [JobSettings.job, hroot, houtput, hextensions, hallowed, hmode, hfollow, hignore]

theorem exists_of_mem {ess : List (List Entry)} {jobs : List Job}
    (h : List.Forall₂ Renders ess jobs) (hes : es ∈ ess) : ∃ job, Renders es job := by
  induction h with
  | nil => cases hes
  | @cons _ job _ _ hjob _ ih =>
    rcases List.mem_cons.1 hes with rfl | hes
    · exact ⟨job, hjob⟩
    · exact ih hes

theorem map_job_foldl {ess : List (List Entry)} {jobs : List Job}
    (h : List.Forall₂ Renders ess jobs) (hallowed : ∀ job ∈ jobs, job.allowed ≠ [])
    (hnormal : ∀ job ∈ jobs, normalizeExtensions job.allowed = job.allowed) :
    ess.map (fun es => (es.foldl Entry.give {}).job) = jobs := by
  induction h with
  | nil => rfl
  | @cons es job ess jobs hjob _ ih =>
    have hfirst := hjob.job_foldl (hallowed job List.mem_cons_self) (hnormal job List.mem_cons_self)
    have hmore := ih (fun j hj => hallowed j (List.mem_cons_of_mem job hj))
      fun j hj => hnormal j (List.mem_cons_of_mem job hj)
    rw [List.map_cons, hfirst, hmore]

theorem exists_of_text (job : Job) (root output : String) (hroot : job.root = .ofString root)
    (houtput : job.output = .ofString output) : ∃ es, Renders es job := by
  refine ⟨[.root root, .output output, .extensions job.allowed, .mode job.mode false,
    .followLinks job.followLinks, .respectIgnore job.respectIgnore], ?_⟩
  constructor
  case once =>
    exact (by decide : [Setting.root, .output, .extensions, .mode, .followLinks,
      .respectIgnore].Nodup)
  case agree => simp [Entry.Agrees, hroot, houtput]
  all_goals simp [Entry.setting]

end Renders

theorem decode_render (l : Layout) {ess : List (List Entry)} (hne : ess ≠ []) (hess : [] ∉ ess)
    (honce : ∀ es ∈ ess, (es.map Entry.setting).Nodup) :
    decode (Utf8.encode (render l ess)) = .ok (ess.map (·.foldl Entry.give {})) := by
  have hplain : ∀ fs ∈ ess.map (·.map Entry.field), ∀ f ∈ fs, f.IsPlain := by
    intro fs hfs f hf
    obtain ⟨es, -, rfl⟩ := List.mem_map.1 hfs
    obtain ⟨e, -, rfl⟩ := List.mem_map.1 hf
    exact isPlain_field e
  have hrecords : [] ∉ ess.map (·.map Entry.field) := by
    intro h
    obtain ⟨es, hes, hnil⟩ := List.mem_map.1 h
    exact hess (List.map_eq_nil_iff.1 hnil ▸ hes)
  have hwrite := decode_write l isWord_jobs (by simpa using hne) hrecords hplain (decodes_config honce)
  rw [decode, Utf8.encode, render, String.toList_ofList, hwrite]
  rfl

/-- Every non-empty list of jobs with textual paths can be written. Whatever the order of the
settings, whichever are left out that have their defaults, and with any presets, reading the text
gives exactly these jobs in their order. -/
theorem read_render {jobs : List Job} (hne : jobs ≠ []) (hallowed : ∀ job ∈ jobs, job.allowed ≠ [])
    (hnormal : ∀ job ∈ jobs, normalizeExtensions job.allowed = job.allowed) :
    ((∀ job ∈ jobs, ∃ root output, job.root = .ofString root ∧ job.output = .ofString output) →
      ∃ ess, List.Forall₂ Renders ess jobs) ∧
    ∀ (path : Path) (l : Layout) (ess : List (List Entry)), List.Forall₂ Renders ess jobs →
      read path (Utf8.encode (render l ess)) = .ok jobs := by
  constructor
  · intro htext
    clear hne hallowed hnormal
    induction jobs with
    | nil => exact ⟨[], .nil⟩
    | cons job jobs ih =>
      obtain ⟨root, output, hroot, houtput⟩ := htext job List.mem_cons_self
      obtain ⟨es, hes⟩ := Renders.exists_of_text job root output hroot houtput
      obtain ⟨ess, hess⟩ := ih fun job' h => htext job' (List.mem_cons_of_mem job h)
      exact ⟨es :: ess, .cons hes hess⟩
  · intro path l ess hess
    have hess' : ess ≠ [] := by
      rintro rfl
      exact hne (List.forall₂_nil_left_iff.1 hess)
    have hnone : [] ∉ ess := by
      intro h
      obtain ⟨job, hjob⟩ := Renders.exists_of_mem hess h
      cases hjob.extensions
    have honce : ∀ es ∈ ess, (es.map Entry.setting).Nodup := fun es h =>
      (Renders.exists_of_mem hess h).elim fun _ hjob => hjob.once
    have hdecode := decode_render l hess' hnone honce
    have hmap := Renders.map_job_foldl hess hallowed hnormal
    obtain ⟨es, ess, rfl⟩ := List.exists_cons_of_ne_nil hess'
    rw [read, hdecode, ← hmap, List.map_cons]
    simp only [List.map_cons, List.map_map]
    rfl

theorem read_render_out_of_order :
    let jobs : List Job := [
      { root := .ofString "a \"b\"\\é", allowed := ["png", "x y"], mode := .atomic,
        respectIgnore := true },
      { root := .ofString "😀", output := .ofString "o.json", allowed := ["jpg"] }]
    let ess : List (List Entry) := [
      [.respectIgnore true, .preset .images true, .extensions ["png", "x y"], .mode .atomic false,
        .root "a \"b\"\\é"],
      [.extensions ["jpg"], .output "o.json", .root "😀"]]
    render ⟨2, true⟩ ess = "jobs:\n" ++
      "  - respect_ignore: true\n" ++
      "    preset: \"images\"\n" ++
      "    allowed_extensions: [\"png\", \"x y\"]\n" ++
      "    write_mode: atomic\n" ++
      "    root: \"a \\U00000022b\\U00000022\\U0000005C\\U000000E9\"\n" ++
      "  - allowed_extensions: [\"jpg\"]\n" ++
      "    output_file: \"o.json\"\n" ++
      "    root: \"\\U0001F600\"\n" ∧
    read (.ofString "jobs.yaml") (Utf8.encode (render ⟨2, true⟩ ess)) = .ok jobs := by
  intro jobs ess
  have hrenders : List.Forall₂ Renders ess jobs := by
    refine .cons ?_ (.cons ?_ .nil) <;> constructor <;> simp [Entry.setting, Entry.Agrees]
  exact ⟨by decide +kernel, (read_render (by decide) (by decide) (by decide)).2 _ _ ess hrenders⟩

end Config

end ResourceManifest
