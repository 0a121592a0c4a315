import Mathlib.Data.List.Nodup
import Mathlib.Data.List.TakeWhile
import ResourceManifest.CommandLine.Arguments
import ResourceManifest.Proofs.Text.Utf8

/-!
Command lines that are put together from uses of flags. Whatever the order of the uses and however
each value is attached to its flag, the parsed arguments are those that the uses give one after the
other, and every job is what some uses ask for.
-/

set_option autoImplicit false

namespace ResourceManifest

namespace Arguments

inductive Item where
  | root (path : Path)
  | output (path : Path)
  | extensions (group : List String)
  | preset (p : Preset)
  | atomic | followLinks | respectIgnore | json
  deriving DecidableEq, Repr

namespace Item

def flag : Item → Flag
  | root _ => .root
  | output _ => .output
  | extensions _ => .ext
  | preset _ => .preset
  | atomic => .atomic
  | followLinks => .followLinks
  | respectIgnore => .respectIgnore
  | json => .json

def value? : Item → Option Bytes
  | root p => some p.bytes
  | output p => some p.bytes
  | extensions g => some (Utf8.encode (",".intercalate g))
  | preset p => some (Utf8.encode p.name)
  | _ => none

def give (a : Arguments) : Item → Arguments
  | root p => { a with root := p }
  | output p => { a with output := p }
  | extensions g => { a with extensions := a.extensions ++ g }
  | preset p => { a with preset := p }
  | atomic => { a with atomic := true }
  | followLinks => { a with followLinks := true }
  | respectIgnore => { a with respectIgnore := true }
  | json => { a with json := true }

def root? : Item → Option Path
  | root p => some p
  | _ => none

def output? : Item → Option Path
  | output p => some p
  | _ => none

def group : Item → List String
  | extensions g => g
  | _ => []

def preset? : Item → Option Preset
  | preset p => some p
  | _ => none

/-- Paths are not empty, and a group of extensions has one at least and no comma inside one. -/
def Valid : Item → Prop
  | root p => p.bytes ≠ []
  | output p => p.bytes ≠ []
  | extensions g => g ≠ [] ∧ ∀ e ∈ g, ',' ∉ e.toList
  | _ => True

end Item

/-- How a value is attached to its flag: behind an equal sign in the same word, or as the next word
behind the long or the short name. -/
inductive Spelling where
  | joined | long | short
  deriving DecidableEq, Repr

/-- An item with the spelling of its value, which means nothing if it has none. -/
structure Use where
  item : Item
  spelling : Spelling := .joined
  deriving DecidableEq, Repr

namespace Use

def words (u : Use) : List Bytes :=
  match u.item.value? with
  | none => [u.item.flag.spelled]
  | some v =>
    match u.spelling, u.item.flag.short? with
    | .joined, _ => [Utf8.encode u.item.flag.spelled ++ Parsing.equalSign :: v]
    | .short, some c => [String.ofList ['-', c], v]
    | _, _ => [u.item.flag.spelled, v]

def Attached (u : Use) : Prop :=
  u.spelling = .joined ∨ ∀ v, u.item.value? = some v → v.head? ≠ some Parsing.dash

end Use

namespace Parsing

/-- When what is pending has been settled, the state has these arguments from these flags. -/
def Settles (s : Parsing) (a : Arguments) (used : List Flag) : Prop :=
  s.settle = .ok ⟨a, used, none⟩

variable {s : Parsing} {a : Arguments} {used : List Flag} {f : Flag} {v : Bytes} {i : Item}

theorem settles_start : Settles {} {} [] := rfl

theorem words_nil (s : Parsing) : s.words [] = s.settle := by rw [words]

theorem shape_long {bs : Bytes} (h : bs ≠ []) : shape (dash :: dash :: bs) = .long bs := by
  simp [shape, h]

theorem shape_plain (h : v.head? ≠ some dash) : shape v = .plain := by
  unfold shape
  split
  · next a b r =>
    have ha : a ≠ dash := fun ha => h (by rw [ha]; rfl)
    rw [if_pos ha]
  · rfl

theorem words_long (s : Parsing) {w bs : Bytes} (h : shape w = .long bs) (ws : List Bytes) :
    s.words (w :: ws) = (s.long bs >>= fun s => s.words ws) := by
  rw [words.eq_def]
  simp only [h]

theorem words_short (s : Parsing) {w broken : Bytes} {cs : List Char}
    (h : shape w = .short cs broken) (ws : List Bytes) :
    s.words (w :: ws) = (s.short broken cs >>= fun s => s.words ws) := by
  rw [words.eq_def]
  simp only [h]

theorem words_word (s : Parsing) (hv : v.head? ≠ some dash) (ws : List Bytes) :
    s.words (v :: ws) = (s.word v >>= fun s => s.words ws) := by
  rw [words.eq_def]
  simp only [shape_plain hv]

theorem encode_spelled (f : Flag) :
    Utf8.encode f.spelled = dash :: dash :: Utf8.encode f.long := by
  cases f <;> decide

theorem encode_long_ne_nil (f : Flag) : Utf8.encode f.long ≠ [] := by cases f <;> decide

theorem ne_equalSign_of_mem_long {f : Flag} {b : UInt8} (h : b ∈ Utf8.encode f.long) :
    decide (b ≠ equalSign) = true := by
  have hall : (Utf8.encode f.long).all (fun b => decide (b ≠ equalSign)) = true := by
    cases f <;> decide
  exact List.all_eq_true.1 hall b h

theorem long_name (s : Parsing) (f : Flag) : s.long (Utf8.encode f.long) = s.flag f := by
  have heq : ∀ b ∈ Utf8.encode f.long, decide (b ≠ equalSign) = true :=
    fun b => ne_equalSign_of_mem_long
  have htake := List.takeWhile_eq_self_iff.2 heq
  have hdrop := List.dropWhile_eq_nil_iff.2 heq
  simp only [long, htake, hdrop, Utf8.decodeLossy_encode, Flag.ofLong?_long]

theorem long_attached (s : Parsing) (hf : f.takesValue = true) (v : Bytes) :
    s.long (Utf8.encode f.long ++ equalSign :: v) = s.attached f v := by
  have heq : ∀ b ∈ Utf8.encode f.long, decide (b ≠ equalSign) = true :=
    fun b => ne_equalSign_of_mem_long
  have htake : (Utf8.encode f.long ++ equalSign :: v).takeWhile (· ≠ equalSign) =
      Utf8.encode f.long := by
    rw [List.takeWhile_append_of_pos heq, List.takeWhile_cons_of_neg (by simp), List.append_nil]
  have hdrop : (Utf8.encode f.long ++ equalSign :: v).dropWhile (· ≠ equalSign) =
      equalSign :: v := by
    rw [List.dropWhile_append_of_pos heq, List.dropWhile_cons_of_neg (by simp)]
  simp only [long, htake, hdrop, Utf8.decodeLossy_encode, Flag.ofLong?_long, hf, if_true]

theorem note_of_free (h : s.used.contains f = false ∨ f.isRepeatable = true) :
    s.note f = .ok { s with used := s.remind f } := by
  unfold note remind
  by_cases hu : s.used.contains f = true
  · rw [if_pos hu, if_pos hu, if_pos (h.resolve_left (by rw [hu]; decide))]
  · rw [if_neg hu, if_neg hu]

theorem takesValue_flag (i : Item) : i.flag.takesValue = i.value?.isSome := by cases i <;> rfl

theorem set_value (hi : i.Valid) (hv : i.value? = some v) : a.set i.flag v = .ok (i.give a) := by
  cases i with
  | root p =>
    obtain rfl := Option.some.inj hv
    exact if_neg hi
  | output p =>
    obtain rfl := Option.some.inj hv
    exact if_neg hi
  | extensions g =>
    obtain rfl := Option.some.inj hv
    obtain ⟨hne, hcomma⟩ := hi
    have hsplit : (",".intercalate g).toList.splitOn ',' = g.map String.toList := by
      rw [String.toList_intercalate]
      exact List.splitOn_intercalate ',' (by simpa using hcomma) (by simpa using hne)
    simp only [set, Item.flag, Item.give, Utf8.decode?_encode, hsplit, List.map_map,
      Function.comp_def, String.ofList_toList, List.map_id']
  | preset p =>
    obtain rfl := Option.some.inj hv
    have hp : Utf8.encode p.name ≠ [] := by cases p <;> decide
    simp [set, Item.flag, Item.give, hp, Utf8.decodeLossy_encode, Preset.ofName?_name]
  | _ => cases hv

theorem switch_flag (hv : i.value? = none) : a.switch i.flag = .ok (i.give a) := by
  cases i <;> first | rfl | cases hv

theorem addValue_value (hi : i.Valid) (hv : i.value? = some v)
    (hfree : used.contains i.flag = false ∨ i.flag.isRepeatable = true) :
    addValue ⟨a, used, none⟩ i.flag v = .ok ⟨i.give a, remind ⟨a, used, none⟩ i.flag, none⟩ := by
  simp only [addValue, note_of_free (s := ⟨a, used, none⟩) hfree, set_value hi hv, bind, Except.bind]

theorem Settles.flag_waits (h : s.Settles a used) (hf : f.takesValue = true) :
    s.flag f = .ok ⟨a, used, some (f, none)⟩ := by
  simp only [flag, show s.settle = _ from h, hf, bind, Except.bind, if_true]

theorem words_waiting (hv : v.head? ≠ some dash) (ws : List Bytes) :
    words ⟨a, used, some (f, none)⟩ (v :: ws) = words ⟨a, used, some (f, some v)⟩ ws :=
  words_word _ hv ws

theorem shape_of_short {c : Char} (h : f.short? = some c) :
    Flag.ofShort? c = some f ∧ shape (Utf8.encode (String.ofList ['-', c])) = .short [c] [] := by
  cases f <;> cases h <;> decide +kernel

theorem exists_short (hv : i.value? = some v) : ∃ c, i.flag.short? = some c := by
  cases i <;> cases hv <;> exact ⟨_, rfl⟩

theorem Settles.use {u : Use} (h : s.Settles a used) (hi : u.item.Valid) (hu : u.Attached)
    (hfree : used.contains u.item.flag = false ∨ u.item.flag.isRepeatable = true) :
    ∃ s' : Parsing, (∀ ws, s.words (u.words ++ ws) = s'.words ws) ∧
      s'.Settles (u.item.give a) (remind ⟨a, used, none⟩ u.item.flag) := by
  have hspelled : shape (Utf8.encode u.item.flag.spelled) = .long (Utf8.encode u.item.flag.long) :=
    (congrArg shape (encode_spelled _)).trans (shape_long (encode_long_ne_nil _))
  have htakes := takesValue_flag u.item
  cases hv : u.item.value? with
  | none =>
    rw [hv, Option.isSome_none] at htakes
    have hflag : s.flag u.item.flag =
        .ok ⟨u.item.give a, remind ⟨a, used, none⟩ u.item.flag, none⟩ := by
      simp only [flag, show s.settle = _ from h, htakes, note_of_free (s := ⟨a, used, none⟩) hfree,
        switch_flag hv, bind, Except.bind, Bool.false_eq_true, if_false]
    refine ⟨⟨u.item.give a, remind ⟨a, used, none⟩ u.item.flag, none⟩, fun ws => ?_, rfl⟩
    simp only [Use.words, hv]
    rw [List.singleton_append, words_long s hspelled, long_name, hflag]
    rfl
  | some v =>
    rw [hv, Option.isSome_some] at htakes
    have hadd := addValue_value (a := a) hi hv hfree
    have hwaits := h.flag_waits htakes
    -- The value is given at once where it is joined to the flag, and when it is settled where not.
    have hpending : Settles ⟨a, used, some (u.item.flag, some v)⟩ (u.item.give a)
        (remind ⟨a, used, none⟩ u.item.flag) := hadd
    cases hs : u.spelling with
    | joined =>
      have hattached : s.attached u.item.flag v =
          .ok ⟨u.item.give a, remind ⟨a, used, none⟩ u.item.flag, none⟩ := by
        simp only [attached, show s.settle = _ from h, hadd, bind, Except.bind]
      refine ⟨⟨u.item.give a, remind ⟨a, used, none⟩ u.item.flag, none⟩, fun ws => ?_, rfl⟩
      have hjoined : shape (Utf8.encode u.item.flag.spelled ++ equalSign :: v) =
          .long (Utf8.encode u.item.flag.long ++ equalSign :: v) := by
        rw [encode_spelled, List.cons_append, List.cons_append, shape_long (by simp)]
      simp only [Use.words, hv, hs]
      rw [List.singleton_append, words_long s hjoined, long_attached s htakes, hattached]
      rfl
    | long =>
      have hword := hu.resolve_left (by simp [hs]) v hv
      refine ⟨_, fun ws => ?_, hpending⟩
      simp only [Use.words, hv, hs]
      rw [List.cons_append, words_long s hspelled, long_name, hwaits]
      exact words_waiting hword ws
    | short =>
      have hword := hu.resolve_left (by simp [hs]) v hv
      refine ⟨_, fun ws => ?_, hpending⟩
      obtain ⟨c, hc⟩ := exists_short hv
      obtain ⟨hof, hshape⟩ := shape_of_short hc
      have hshort : s.short [] [c] = s.flag u.item.flag := by
        simp only [short, hof, htakes, if_true]
        rfl
      simp only [Use.words, hv, hs, hc]
      rw [List.cons_append, words_short s hshape, hshort, hwaits]
      exact words_waiting hword ws

theorem Settles.uses {us : List Use} (h : s.Settles a used)
    (hus : ∀ u ∈ us, u.item.Valid ∧ u.Attached)
    (honce : ∀ f : Flag, f.isRepeatable = false →
      (us.map (·.item.flag)).count f + (if used.contains f then 1 else 0) ≤ 1) :
    ∃ used', s.words (us.flatMap Use.words) =
      .ok ⟨(us.map Use.item).foldl Item.give a, used', none⟩ := by
  induction us generalizing s a used with
  | nil => exact ⟨used, (words_nil s).trans h⟩
  | cons u us ih =>
    obtain ⟨hi, hu⟩ := hus u List.mem_cons_self
    have hfree : used.contains u.item.flag = false ∨ u.item.flag.isRepeatable = true := by
      by_contra hno
      rw [not_or, Bool.not_eq_false, Bool.not_eq_true] at hno
      have hle := honce _ hno.2
      rw [List.map_cons, List.count_cons_self, if_pos hno.1] at hle
      omega
    obtain ⟨s', hwords, hs'⟩ := h.use hi hu hfree
    rw [List.flatMap_cons, hwords, List.map_cons, List.foldl_cons]
    refine ih hs' (fun v hv => hus v (List.mem_cons_of_mem u hv)) fun f hf => ?_
    have hle := honce f hf
    rw [List.map_cons, List.count_cons] at hle
    unfold remind
    by_cases hfu : u.item.flag = f
    · subst hfu
      have hnot : used.contains u.item.flag = false := hfree.resolve_right (by simp [hf])
      simp only [hnot, Bool.false_eq_true, if_false, beq_self_eq_true, if_true] at hle ⊢
      split <;> omega
    · have hne : (u.item.flag == f) = false := by simpa using hfu
      simp only [hne, Bool.false_eq_true, if_false] at hle
      by_cases hc : used.contains u.item.flag = true
      · rw [if_pos hc]
        omega
      · have hmem : (used ++ [u.item.flag]).contains f = used.contains f := by
          simp [List.contains_eq_mem, Ne.symm hfu]
        rw [if_neg hc, hmem]
        omega

end Parsing

theorem foldl_give (is : List Item) (a : Arguments) :
    is.foldl Item.give a =
      { root := (is.filterMap Item.root?).getLast?.getD a.root
        output := (is.filterMap Item.output?).getLast?.getD a.output
        extensions := a.extensions ++ is.flatMap Item.group
        preset := (is.filterMap Item.preset?).getLast?.getD a.preset
        configFile? := a.configFile?
        atomic := a.atomic || is.contains .atomic
        followLinks := a.followLinks || is.contains .followLinks
        respectIgnore := a.respectIgnore || is.contains .respectIgnore
        json := a.json || is.contains .json } := by
  induction is generalizing a with
  | nil => simp
  | cons i is ih =>
    rw [List.foldl_cons, ih]
    cases i <;> simp [Item.give, Item.root?, Item.output?, Item.group, Item.preset?,
      List.getLast?_cons]

/-- The uses ask for a job and for nothing else but a preset, which goes for nothing beside
extensions, and the form of the report. What is not asked for is the default. -/
structure Arranges (us : List Use) (job : Job) : Prop where
  once : ∀ f : Flag, f ≠ .ext → (us.map (·.item.flag)).count f ≤ 1
  root : ∀ p, .root p ∈ us.map Use.item → p = job.root
  noRoot : (∀ p, .root p ∉ us.map Use.item) → job.root = defaultRoot
  output : ∀ p, .output p ∈ us.map Use.item → p = job.output
  noOutput : (∀ p, .output p ∉ us.map Use.item) → job.output = defaultOutput
  extensions : (us.map Use.item).flatMap Item.group = job.allowed
  groups : .extensions [] ∉ us.map Use.item
  atomic : .atomic ∈ us.map Use.item ↔ job.mode = .atomic
  followLinks : .followLinks ∈ us.map Use.item ↔ job.followLinks = true
  respectIgnore : .respectIgnore ∈ us.map Use.item ↔ job.respectIgnore = true
  attached : ∀ u ∈ us, u.Attached

theorem root?_eq_some_iff {i : Item} {p : Path} : i.root? = some p ↔ i = .root p := by
  cases i <;> simp [Item.root?]

theorem output?_eq_some_iff {i : Item} {p : Path} : i.output? = some p ↔ i = .output p := by
  cases i <;> simp [Item.output?]

theorem getLast?_getD {is : List Item} {value? : Item → Option Path} {make : Path → Item}
    (hmake : ∀ i p, value? i = some p ↔ i = make p) {p default : Path}
    (hall : ∀ q, make q ∈ is → q = p) (hnone : (∀ q, make q ∉ is) → p = default) :
    (is.filterMap value?).getLast?.getD default = p := by
  cases h : (is.filterMap value?).getLast? with
  | none =>
    refine (hnone fun q hq => ?_).symm
    have hm : q ∈ is.filterMap value? := List.mem_filterMap.2 ⟨_, hq, (hmake _ q).2 rfl⟩
    rw [List.getLast?_eq_none_iff.1 h] at hm
    cases hm
  | some q =>
    obtain ⟨i, hi, hq⟩ := List.mem_filterMap.1 (List.mem_of_getLast? h)
    obtain rfl := (hmake i q).1 hq
    exact hall q hi

namespace Arranges

variable {us : List Use} {job : Job}

theorem valid (h : Arranges us job) (hroot : job.root.bytes ≠ []) (houtput : job.output.bytes ≠ [])
    (hcommas : ∀ e ∈ job.allowed, ',' ∉ e.toList) : ∀ u ∈ us, u.item.Valid := by
  intro u hu
  have hm : u.item ∈ us.map Use.item := List.mem_map_of_mem hu
  cases hi : u.item with
  | root p =>
    obtain rfl := h.root p (hi ▸ hm)
    exact hroot
  | output p =>
    obtain rfl := h.output p (hi ▸ hm)
    exact houtput
  | extensions g =>
    rw [hi] at hm
    refine ⟨fun hg => h.groups (hg ▸ hm), fun e he => hcommas e ?_⟩
    rw [← h.extensions]
    exact List.mem_flatMap.2 ⟨_, hm, he⟩
  | _ => trivial

theorem job_foldl (h : Arranges us job) (hne : job.allowed ≠ [])
    (hnormal : normalizeExtensions job.allowed = job.allowed) :
    ((us.map Use.item).foldl Item.give {}).job = job := by
  have hroot := getLast?_getD (fun _ _ => root?_eq_some_iff) h.root h.noRoot
  have houtput := getLast?_getD (fun _ _ => output?_eq_some_iff) h.output h.noOutput
  have hallowed := selectExtensions_of_normal hne hnormal
  have hmode : (if (us.map Use.item).contains .atomic then WriteMode.atomic else .direct) =
      job.mode := by
    have ha := h.atomic
    cases hm : job.mode <;> simp_all
  have hfollow : (us.map Use.item).contains .followLinks = job.followLinks := by
    rw [Bool.eq_iff_iff, List.contains_iff_mem, h.followLinks]
  have hignore : (us.map Use.item).contains .respectIgnore = job.respectIgnore := by
    rw [Bool.eq_iff_iff, List.contains_iff_mem, h.respectIgnore]
  simp only [foldl_give, Arguments.job, hroot, houtput, h.extensions, List.nil_append, hallowed,
    Bool.false_or, hmode, hfollow, hignore]

theorem exists_arranges (job : Job) (hne : job.allowed ≠ []) : ∃ us, Arranges us job := by
  obtain ⟨root, output, allowed, mode, followLinks, respectIgnore⟩ := job
  have hempty : [] ≠ allowed := hne.symm
  refine ⟨[⟨.root root, .joined⟩, ⟨.output output, .joined⟩, ⟨.extensions allowed, .joined⟩] ++
    (if mode = .atomic then [⟨.atomic, .joined⟩] else []) ++
    (if followLinks then [⟨.followLinks, .joined⟩] else []) ++
    (if respectIgnore then [⟨.respectIgnore, .joined⟩] else []), ?_⟩
  constructor
  case once =>
    intro f _
    refine List.nodup_iff_count_le_one.1 ?_ f
    cases mode <;> cases followLinks <;> cases respectIgnore <;> simp [Item.flag]
  all_goals cases mode <;> cases followLinks <;> cases respectIgnore <;>
    simp [Use.Attached, Item.group, hempty]

end Arranges

/-- A job with non-empty paths and normal extensions free of commas can be asked for, and however
the uses of flags that ask for it are ordered and spelled, with whatever grouping of its extensions,
parsing the words gives that job. -/
theorem parse_arranged {job : Job} (hroot : job.root.bytes ≠ [])
    (houtput : job.output.bytes ≠ []) (hne : job.allowed ≠ [])
    (hnormal : normalizeExtensions job.allowed = job.allowed)
    (hcommas : ∀ e ∈ job.allowed, ',' ∉ e.toList) :
    (∃ us, Arranges us job) ∧
    ∀ us, Arranges us job → ∃ a, parse (us.flatMap Use.words) = .ok a ∧ a.job = job ∧
      a.configFile? = none ∧ (a.json = true ↔ .json ∈ us.map Use.item) := by
  refine ⟨Arranges.exists_arranges job hne, ?_⟩
  intro us h
  have hvalid := h.valid hroot houtput hcommas
  have honce : ∀ f : Flag, f.isRepeatable = false →
      (us.map (·.item.flag)).count f + (if ([] : List Flag).contains f then 1 else 0) ≤ 1 := by
    intro f hf
    refine h.once f ?_
    rintro rfl
    cases hf
  obtain ⟨used, hwords⟩ := Parsing.settles_start.uses (fun u hu => ⟨hvalid u hu, h.attached u hu⟩)
    honce
  refine ⟨(us.map Use.item).foldl Item.give {}, ?_, h.job_foldl hne hnormal, ?_, ?_⟩
  · rw [parse, hwords]
    rfl
  · rw [foldl_give]
  · simp only [foldl_give, Bool.false_or, List.contains_iff_mem]

theorem parse_arranged_out_of_order :
    let job : Job := {
      root := ⟨Utf8.encode "-a=b,c d" ++ [0xFF]⟩, allowed := ["png", "-x"], mode := .atomic
      respectIgnore := true }
    let us : List Use := [⟨.extensions ["png"], .short⟩, ⟨.json, .joined⟩, ⟨.respectIgnore, .joined⟩,
      ⟨.root job.root, .joined⟩, ⟨.extensions ["-x"], .joined⟩, ⟨.preset .images, .long⟩,
      ⟨.atomic, .joined⟩]
    us.flatMap Use.words = (["-e", "png", "--json", "--respect-ignore",
      Utf8.encode "--root=-a=b,c d" ++ [0xFF], "--ext=-x", "--preset", "images",
      "--atomic"] : List Bytes) ∧
    ∃ a, parse (us.flatMap Use.words) = .ok a ∧ a.job = job ∧ a.configFile? = none ∧
      (a.json = true ↔ .json ∈ us.map Use.item) := by
  intro job us
  have harranges : Arranges us job := by
    constructor
    case once =>
      intro f hf
      cases f <;> first | exact absurd rfl hf | decide
    all_goals simp [us, job, Use.Attached, Item.value?, Preset.name]
    all_goals decide
  exact ⟨by decide,
    (parse_arranged (by decide) (by decide) (by decide) (by decide) (by decide)).2 us harranges⟩

end Arguments

end ResourceManifest
