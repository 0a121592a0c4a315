import ResourceManifest.Ignore.Guard
import ResourceManifest.Proofs.FileSystem.Alike

/-!
What is known before a walk that heeds ignore files begins, and whether it begins: all of it is
settled by what a few files hold. A file that cannot be read is as good as an empty one, whatever
the reason, but one without an end is the end of the walk.
-/

set_option autoImplicit false

namespace ResourceManifest

variable {fs fs' : FileSystem} {dir file root : Path}

theorem findSome?_eq_of_mem {α β : Type} {f g : α → Option β} {xs : List α}
    (h : ∀ x ∈ xs, f x = g x) : xs.findSome? f = xs.findSome? g := by
  induction xs with
  | nil => rfl
  | cons x xs ih =>
    rw [List.findSome?_cons, List.findSome?_cons, h x List.mem_cons_self,
      ih fun y hy => h y (List.mem_cons_of_mem _ hy)]

namespace RuleFile

theorem rules_readLines (file file' : Path) (n : Nat) (lines : List Bytes) :
    (readLines file n lines).rules = (readLines file' n lines).rules := by
  induction lines generalizing n with
  | nil => rfl
  | cons l ls ih =>
    unfold readLines
    cases Utf8.decode? l with
    | none => rfl
    | some line =>
      simp only
      cases Rule.parse? (if n = 1 then withoutOrderMarks line else line) with
      | error p => exact ih (n + 1)
      | ok rule =>
        cases rule with
        | none => exact ih (n + 1)
        | some rule => simp only [ih (n + 1)]

def IsTaken (limit : PatternLimit) (content : Bytes) : Prop :=
  limit.refusal? ((readLines ⟨[]⟩ 1 (byteLines content)).rules.map Rule.glob) = none

instance (limit : PatternLimit) (content : Bytes) : Decidable (IsTaken limit content) :=
  inferInstanceAs (Decidable (_ = none))

def rulesOf (limit : PatternLimit) : Except FileFault (Option Bytes) → List Rule
  | .ok (some content) =>
    let rules := (readLines ⟨[]⟩ 1 (byteLines content)).rules
    if limit.refusal? (rules.map Rule.glob) = none then rules else []
  | _ => []

theorem rulesOf_congr {limit : PatternLimit} {x y : Except FileFault (Option Bytes)}
    (h : SameSuccess x y) : rulesOf limit x = rulesOf limit y := by
  rcases h.oks_or_errors with ⟨c?, rfl, rfl⟩ | ⟨f, f', rfl, rfl⟩
  · rfl
  · rfl

@[simp]
theorem load_root (fs : FileSystem) (dir file : Path) :
    (load fs dir file).1.root = withoutHere dir.bytes := by
  unfold load
  simp only
  split <;> rfl

theorem load_rules (fs : FileSystem) (dir file : Path) :
    (load fs dir file).1.rules = rulesOf fs.ignoring.limit (fs.contents file) := by
  have hnone : fs.ignoring.limit.refusal? [] = none := fs.ignoring.limit.empty
  unfold load
  cases fs.contents file with
  | error f => simp [hnone, rulesOf]
  | ok c? =>
    cases c? with
    | none => simp [hnone, rulesOf]
    | some content =>
      simp only [rules_readLines file ⟨[]⟩, rulesOf]
      cases hr : fs.ignoring.limit.refusal?
        ((readLines ⟨[]⟩ 1 (byteLines content)).rules.map Rule.glob) with
      | none => rfl
      | some text => rfl

theorem load_eq_of_rulesOf (hset : fs'.ignoring = fs.ignoring)
    (h : rulesOf fs.ignoring.limit (fs.contents file) =
      rulesOf fs.ignoring.limit (fs'.contents file)) :
    (load fs dir file).1 = (load fs' dir file).1 := by
  refine RuleFile.ext (by simp) ?_
  rw [load_rules, load_rules, hset, h]

theorem load_congr (hset : fs'.ignoring = fs.ignoring)
    (h : SameSuccess (fs.contents file) (fs'.contents file)) :
    load fs dir file = load fs' dir file := by
  unfold load
  rw [hset]
  rcases h.oks_or_errors with ⟨content, hr, hr'⟩ | ⟨f, f', hr, hr'⟩
  · rw [hr, hr']
  · rw [hr, hr']

end RuleFile

theorem IgnoreLevel.load_congr (hset : fs'.ignoring = fs.ignoring)
    (h : ∀ k, SameSuccess (fs.contents (IgnoreKind.file dir k))
      (fs'.contents (IgnoreKind.file dir k))) : load fs dir = load fs' dir := by
  unfold load
  simp only [RuleFile.load_congr hset (h _)]

namespace IgnoreKind

theorem endless?_eq_none_iff :
    endless? fs dir = none ↔ ∀ k, fs.contents (IgnoreKind.file dir k) ≠ .ok none := by
  simp only [endless?, List.find?_eq_none, List.mem_map, decide_eq_true_eq]
  constructor
  · intro h k
    exact h _ ⟨k, by cases k <;> decide, rfl⟩
  · rintro h _ ⟨k, -, rfl⟩
    exact h k

theorem contents_of_endless? (h : endless? fs dir = some file) : fs.contents file = .ok none := by
  unfold endless? at h
  simpa using List.find?_some h

theorem endless?_congr (h : ∀ k, SameSuccess (fs.contents (IgnoreKind.file dir k))
    (fs'.contents (IgnoreKind.file dir k))) : endless? fs dir = endless? fs' dir := by
  have hfile : ∀ k, decide (fs.contents (IgnoreKind.file dir k) = .ok none) =
      decide (fs'.contents (IgnoreKind.file dir k) = .ok none) := fun k =>
    decide_eq_decide.2 (h k none)
  simp only [endless?, List.find?_map, Function.comp_def, hfile]

end IgnoreKind

namespace IgnoreSettings

theorem contents_of_excludesFile {configs : List Path} {config : Path}
    (h : excludesFile fs configs = .error config) : fs.contents config = .ok none := by
  induction configs with
  | nil => cases h
  | cons c more ih =>
    unfold excludesFile at h
    cases hc : fs.contents c with
    | error f => exact ih (by simpa [hc] using h)
    | ok content =>
      cases content with
      | none =>
        obtain rfl : c = config := by simpa [hc] using h
        exact hc
      | some content =>
        cases hn : fs.ignoring.named? content with
        | none => exact ih (by simpa [hc, hn] using h)
        | some file => simp [hc, hn] at h

/-- The settings come to an end, up to one that says which ignore file holds for every tree. -/
def Settled (fs : FileSystem) : Prop :=
  ∃ file?, excludesFile fs fs.ignoring.configs = .ok file?

theorem excludesFile_congr {configs : List Path} (hset : fs'.ignoring = fs.ignoring)
    (h : ∀ c ∈ configs, SameSuccess (fs.contents c) (fs'.contents c)) :
    excludesFile fs configs = excludesFile fs' configs := by
  induction configs with
  | nil => simp only [excludesFile, hset]
  | cons c more ih =>
    have hmore := ih fun d hd => h d (List.mem_cons_of_mem c hd)
    unfold excludesFile
    rcases (h c List.mem_cons_self).oks_or_errors with ⟨content, hr, hr'⟩ | ⟨f, f', hr, hr'⟩
    · rw [hr, hr', hset, hmore]
    · rw [hr, hr']
      exact hmore

def NamesFile (fs : FileSystem) (file : Path) : Prop :=
  excludesFile fs fs.ignoring.configs = .ok (some file)

theorem rules_congr (hset : fs'.ignoring = fs.ignoring) (hcwd : fs'.cwd = fs.cwd)
    (hconfigs : ∀ c ∈ fs.ignoring.configs, SameSuccess (fs.contents c) (fs'.contents c))
    (hfile : ∀ file, NamesFile fs file → SameSuccess (fs.contents file) (fs'.contents file)) :
    rules fs = rules fs' := by
  unfold rules
  rw [hset, hcwd, ← excludesFile_congr hset hconfigs]
  cases hx : excludesFile fs fs.ignoring.configs with
  | error c => rfl
  | ok file? =>
    cases file? with
    | none => rfl
    | some file => simp only [RuleFile.load_congr hset (hfile file hx)]

end IgnoreSettings

namespace IgnoreState

theorem enter_congr (hset : fs'.ignoring = fs.ignoring)
    (h : ∀ k, SameSuccess (fs.contents (IgnoreKind.file dir k))
      (fs'.contents (IgnoreKind.file dir k))) (s : IgnoreState) :
    guard.enter fs s dir = guard.enter fs' s dir := by
  simp only [guard, enter, IgnoreLevel.load_congr hset h]

theorem surroundings_of_dir {r : Location} {mode : Nat}
    (h : fs.look .follow root = .ok (r, .dir mode)) : surroundings fs root =
      if (Location.path r).bytes.length < pathLimit then (Location.path r, Location.around r)
      else (⟨[]⟩, []) := by
  simp [surroundings, h]

theorem surroundings_congr (h : SameSuccess (fs.look .follow root) (fs'.look .follow root)) :
    surroundings fs root = surroundings fs' root := by
  unfold surroundings
  rcases h.oks_or_errors with ⟨x, hx, hx'⟩ | ⟨f, f', hx, hx'⟩
  · rw [hx, hx']
  · rw [hx, hx']

theorem mem_surroundings {m : Location} (h : m ∈ (surroundings fs root).2) :
    ∃ r mode, fs.look .follow root = .ok (r, .dir mode) ∧ m ∈ Location.around r := by
  unfold surroundings at h
  split at h
  · next r mode hl =>
    split at h
    · exact ⟨r, mode, hl, h⟩
    · cases h
  · cases h

theorem contents_of_endlessAround? (h : endlessAround? fs root = some file) :
    fs.contents file = .ok none := by
  obtain ⟨m, -, hm⟩ := List.exists_of_findSome?_eq_some h
  exact IgnoreKind.contents_of_endless? hm

theorem contents_of_endlessOwn? (h : endlessOwn? fs root = some file) :
    fs.contents file = .ok none := by
  unfold endlessOwn? at h
  split at h
  · exact IgnoreKind.contents_of_endless? h
  · cases h

theorem endlessOwn?_congr (hl : SameSuccess (fs.look .follow root) (fs'.look .follow root))
    (h : ∀ r mode, fs.look .follow root = .ok (r, .dir mode) → ∀ k,
      SameSuccess (fs.contents (IgnoreKind.file root k)) (fs'.contents (IgnoreKind.file root k))) :
    endlessOwn? fs root = endlessOwn? fs' root := by
  unfold endlessOwn?
  rcases hl.oks_or_errors with ⟨⟨r, n⟩, hx, hx'⟩ | ⟨f, f', hx, hx'⟩
  · rw [hx, hx']
    cases n with
    | dir mode => exact IgnoreKind.endless?_congr (h r mode hx)
    | _ => rfl
  · rw [hx, hx']

theorem endlessOwn?_eq_none (h : ∀ r mode, fs.look .follow root = .ok (r, .dir mode) →
    IgnoreKind.endless? fs root = none) : endlessOwn? fs root = none := by
  unfold endlessOwn?
  split
  · next r mode hl => exact h r mode hl
  · rfl

theorem endlessAround?_eq_none_iff : endlessAround? fs root = none ↔
    ∀ m ∈ (surroundings fs root).2, IgnoreKind.endless? fs (Location.path m) = none := by
  simp [endlessAround?]

end IgnoreState

namespace Walk

/-- Two file systems in which the same is known before a walk begins: the same settings lead to the
same ignore files, which hold the same or cannot be read. -/
structure OpensAlike (fs fs' : FileSystem) (root : Path) : Prop where
  settings : fs'.ignoring = fs.ignoring
  cwd : fs'.cwd = fs.cwd
  look : SameSuccess (fs.look .follow root) (fs'.look .follow root)
  configs : ∀ c ∈ fs.ignoring.configs, SameSuccess (fs.contents c) (fs'.contents c)
  named : ∀ file, IgnoreSettings.NamesFile fs file →
    SameSuccess (fs.contents file) (fs'.contents file)
  around : ∀ r mode, fs.look .follow root = .ok (r, .dir mode) → ∀ m ∈ Location.around r, ∀ k,
    SameSuccess (fs.contents (IgnoreKind.file (Location.path m) k))
      (fs'.contents (IgnoreKind.file (Location.path m) k))
  own : ∀ r mode, fs.look .follow root = .ok (r, .dir mode) → ∀ k,
    SameSuccess (fs.contents (IgnoreKind.file root k)) (fs'.contents (IgnoreKind.file root k))

namespace OpensAlike

theorem of_contents (settings : fs'.ignoring = fs.ignoring) (cwd : fs'.cwd = fs.cwd)
    (look : SameSuccess (fs.look .follow root) (fs'.look .follow root))
    (contents : ∀ p, SameSuccess (fs.contents p) (fs'.contents p)) : OpensAlike fs fs' root where
  settings := settings
  cwd := cwd
  look := look
  configs c _ := contents c
  named file _ := contents file
  around _ _ _ _ _ _ := contents _
  own _ _ _ _ := contents _

theorem atRoot (h : OpensAlike fs fs' root) :
    IgnoreState.atRoot fs root = IgnoreState.atRoot fs' root := by
  have hload : ((IgnoreState.surroundings fs root).2.map fun m =>
        IgnoreLevel.load fs (Location.path m)) =
      (IgnoreState.surroundings fs root).2.map fun m =>
        IgnoreLevel.load fs' (Location.path m) := by
    refine List.map_congr_left fun m hm => ?_
    obtain ⟨r, mode, hl, hm⟩ := IgnoreState.mem_surroundings hm
    exact IgnoreLevel.load_congr h.settings (h.around r mode hl m hm)
  have hrules := IgnoreSettings.rules_congr h.settings h.cwd h.configs h.named
  simp only [IgnoreState.atRoot, ← IgnoreState.surroundings_congr h.look, hload, hrules]

theorem endlessAround? (h : OpensAlike fs fs' root) :
    IgnoreState.endlessAround? fs root = IgnoreState.endlessAround? fs' root := by
  unfold IgnoreState.endlessAround?
  rw [← IgnoreState.surroundings_congr h.look]
  refine findSome?_eq_of_mem fun m hm => ?_
  obtain ⟨r, mode, hl, hm⟩ := IgnoreState.mem_surroundings (List.mem_reverse.1 hm)
  exact IgnoreKind.endless?_congr (h.around r mode hl m hm)

theorem opening (h : OpensAlike fs fs' root) : opening fs root = opening fs' root := by
  unfold Walk.opening
  rw [h.settings, ← IgnoreSettings.excludesFile_congr h.settings h.configs, ← h.endlessAround?,
    ← h.atRoot, ← IgnoreState.endlessOwn?_congr h.look h.own]

end OpensAlike

def aroundFaults (fs : FileSystem) (root : Path) : List IgnoreFault :=
  if (IgnoreState.atRoot fs root).2 = [] then [] else [.rules (IgnoreState.atRoot fs root).2]

theorem opening_cases (fs : FileSystem) (root : Path) :
    isStandardInput root = false ∧
      opening fs root = (aroundFaults fs root, some (IgnoreState.atRoot fs root).1) ∨
    isStandardInput root = true ∧ opening fs root = ([], none) ∨
    ∃ before file, fs.contents file = .ok none ∧
      (before = [] ∨ before = aroundFaults fs root) ∧
      opening fs root = (before ++ [.walk (.endless file)], none) := by
  unfold opening
  cases hx : IgnoreSettings.excludesFile fs fs.ignoring.configs with
  | error c =>
    exact .inr (.inr ⟨[], c, IgnoreSettings.contents_of_excludesFile hx, .inl rfl, rfl⟩)
  | ok file? =>
    by_cases hstd : isStandardInput root = true
    · exact .inr (.inl ⟨hstd, by simp [hstd]⟩)
    · simp only [hstd, Bool.false_eq_true, if_false]
      cases ha : IgnoreState.endlessAround? fs root with
      | some file =>
        exact .inr (.inr ⟨[], file, IgnoreState.contents_of_endlessAround? ha, .inl rfl, rfl⟩)
      | none =>
        cases ho : IgnoreState.endlessOwn? fs root with
        | some file =>
          exact .inr (.inr ⟨_, file, IgnoreState.contents_of_endlessOwn? ho, .inr rfl, rfl⟩)
        | none => exact .inl ⟨trivial, rfl⟩

theorem opening_of_ends (hstd : isStandardInput root = false)
    (hset : IgnoreSettings.Settled fs)
    (haround : IgnoreState.endlessAround? fs root = none)
    (hown : IgnoreState.endlessOwn? fs root = none) :
    opening fs root = (aroundFaults fs root, some (IgnoreState.atRoot fs root).1) := by
  obtain ⟨file?, hx⟩ := hset
  simp only [opening, hx, hstd, Bool.false_eq_true, if_false, haround, hown]
  rfl

theorem opening_of_standardInput (hstd : isStandardInput root = true)
    (hset : IgnoreSettings.Settled fs) : opening fs root = ([], none) := by
  obtain ⟨file?, hx⟩ := hset
  simp [opening, hx, hstd]

theorem settled_of_opening (hok : ∀ file, .walk (.endless file) ∉ (opening fs root).1) :
    IgnoreSettings.Settled fs := by
  unfold opening at hok
  unfold IgnoreSettings.Settled
  cases hx : IgnoreSettings.excludesFile fs fs.ignoring.configs with
  | ok file? => exact ⟨file?, rfl⟩
  | error c =>
    rw [hx] at hok
    exact absurd List.mem_cons_self (hok c)

theorem opening_of_some {before : List IgnoreFault} {s : IgnoreState}
    (h : opening fs root = (before, some s)) :
    isStandardInput root = false ∧ before = aroundFaults fs root ∧
      s = (IgnoreState.atRoot fs root).1 := by
  rcases opening_cases fs root with ⟨hstd, hx⟩ | ⟨-, hx⟩ | ⟨b, file, -, -, hx⟩
  · cases hx.symm.trans h
    exact ⟨hstd, rfl, rfl⟩
  · cases hx.symm.trans h
  · cases hx.symm.trans h

theorem opening_ne_none (hstd : isStandardInput root = false) :
    opening fs root ≠ ([], none) := by
  intro h
  rcases opening_cases fs root with ⟨-, hx⟩ | ⟨hstd', -⟩ | ⟨before, file, -, -, hx⟩
  · simp [hx] at h
  · rw [hstd] at hstd'
    cases hstd'
  · simp [hx] at h

theorem upToEndless_prefix (items : List (Except WalkFault Path)) :
    upToEndless items <+: items := by
  induction items with
  | nil => exact List.nil_prefix
  | cons item items ih =>
    unfold upToEndless
    split
    · next heq => cases heq
    · next heq =>
      rw [heq]
      simp
    · next heq =>
      obtain ⟨rfl, rfl⟩ := List.cons.inj heq
      exact List.cons_prefix_cons.2 ⟨rfl, ih⟩

theorem upToEndless_eq_self {items : List (Except WalkFault Path)}
    (h : ∀ file, .error (.endless file) ∉ items) : upToEndless items = items := by
  induction items with
  | nil => rfl
  | cons item items ih =>
    have hi := ih fun file hf => h file (List.mem_cons_of_mem item hf)
    unfold upToEndless
    split
    · next heq => cases heq
    · next file _ heq =>
      obtain ⟨rfl, -⟩ := List.cons.inj heq
      exact absurd List.mem_cons_self (h file)
    · next item' items' _ heq =>
      obtain ⟨rfl, rfl⟩ := List.cons.inj heq
      rw [hi]

end Walk

end ResourceManifest
