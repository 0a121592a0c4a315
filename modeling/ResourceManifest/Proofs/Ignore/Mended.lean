import ResourceManifest.Proofs.FileSystem.Rewrite
import ResourceManifest.Proofs.Ignore.Decision

/-!
Ignore files and what is at fault in them. A line that is no pattern may as well be blank, and
reading ends at the first line that is no text: the rules are those of the lines that are left. A
file whose patterns are too much for one matcher may as well be empty.
-/

set_option autoImplicit false

namespace ResourceManifest

/-- Of the first lines some that are no patterns are blank in the second ones, which may also end
at the first line that is no text. The number is that of the first line. -/
inductive Mended : Nat → List Bytes → List Bytes → Prop where
  | done {n : Nat} : Mended n [] []
  | same {n : Nat} {l : Bytes} {ls ls' : List Bytes} :
      Mended (n + 1) ls ls' → Mended n (l :: ls) (l :: ls')
  | blank {n : Nat} {l : Bytes} {ls ls' : List Bytes} {line : String} {p : GlobProblem} :
      Utf8.decode? l = some line →
      Rule.parse? (if n = 1 then RuleFile.withoutOrderMarks line else line) = .error p →
      Mended (n + 1) ls ls' → Mended n (l :: ls) ([] :: ls')
  | cut {n : Nat} {l : Bytes} {ls : List Bytes} :
      Utf8.decode? l = none → Mended n (l :: ls) []

theorem Mended.refl (n : Nat) (ls : List Bytes) : Mended n ls ls := by
  induction ls generalizing n with
  | nil => exact .done
  | cons l ls ih => exact .same (ih (n + 1))

namespace RuleFile

variable {n : Nat} {ls ls' : List Bytes} {file : Path}

theorem readLines_blank (file : Path) (n : Nat) (ls : List Bytes) :
    readLines file n ([] :: ls) = readLines file (n + 1) ls := by
  have hd : Utf8.decode? [] = some "" := by decide +kernel
  have hline : (if n = 1 then withoutOrderMarks "" else "") = "" := by
    split <;> rfl
  have hp : Rule.parse? "" = .ok none := by rfl
  conv => lhs; unfold readLines
  simp only [hd, hline, hp]

theorem rules_of_mended (h : Mended n ls ls') :
    (readLines file n ls).rules = (readLines file n ls').rules := by
  induction h with
  | done => rfl
  | @same n l ls ls' _ ih =>
    unfold readLines
    cases Utf8.decode? l with
    | none => rfl
    | some line =>
      simp only
      cases Rule.parse? (if n = 1 then withoutOrderMarks line else line) with
      | error p => exact ih
      | ok rule =>
        cases rule with
        | none => exact ih
        | some rule => simp only [ih]
  | @blank n l ls ls' line p hd hp _ ih =>
    rw [readLines_blank]
    conv => lhs; unfold readLines
    simp only [hd, hp]
    exact ih
  | cut hd =>
    unfold readLines
    simp only [hd]

theorem faults_of_mended (h : Mended n ls ls') :
    (readLines file n ls').faults ⊆ (readLines file n ls).faults := by
  induction h with
  | done => exact List.Subset.refl _
  | @same n l ls ls' _ ih =>
    unfold readLines
    cases Utf8.decode? l with
    | none => exact List.Subset.refl _
    | some line =>
      simp only
      cases Rule.parse? (if n = 1 then withoutOrderMarks line else line) with
      | error p => exact List.cons_subset_cons _ ih
      | ok rule =>
        cases rule with
        | none => exact ih
        | some rule => exact ih
  | @blank n l ls ls' line p hd hp _ ih =>
    rw [readLines_blank]
    conv => rhs; unfold readLines
    simp only [hd, hp]
    exact List.subset_cons_of_subset _ ih
  | cut hd => exact List.nil_subset _

end RuleFile

inductive MendedFile (limit : PatternLimit) :
    Except FileFault (Option Bytes) → Except FileFault (Option Bytes) → Prop where
  | same {x y : Except FileFault (Option Bytes)} : SameSuccess x y → MendedFile limit x y
  | lines {c c' : Bytes} : Mended 1 (byteLines c) (byteLines c') →
      MendedFile limit (.ok (some c)) (.ok (some c'))
  | refused {c : Bytes} : ¬ RuleFile.IsTaken limit c →
      MendedFile limit (.ok (some c)) (.ok (some []))

namespace MendedFile

variable {limit : PatternLimit} {x y : Except FileFault (Option Bytes)}

theorem rulesOf (h : MendedFile limit x y) :
    RuleFile.rulesOf limit x = RuleFile.rulesOf limit y := by
  cases h with
  | same h => exact RuleFile.rulesOf_congr h
  | lines h => simp only [RuleFile.rulesOf, RuleFile.rules_of_mended h]
  | refused h =>
    have hempty : RuleFile.rulesOf limit (.ok (some [])) = [] := ite_self _
    rw [hempty]
    exact if_neg h

theorem ends_iff (h : MendedFile limit x y) : x = .ok none ↔ y = .ok none := by
  cases h with
  | same h => exact h none
  | lines _ => simp
  | refused _ => simp

end MendedFile

/-- What is read in the second file system is what is read in the first one, mended. The settings
are as they were. -/
structure RulesMended (fs fs' : FileSystem) : Prop where
  files : ∀ dir k, MendedFile fs.ignoring.limit (fs.contents (IgnoreKind.file dir k))
    (fs'.contents (IgnoreKind.file dir k))
  named : ∀ file, IgnoreSettings.NamesFile fs file →
    MendedFile fs.ignoring.limit (fs.contents file) (fs'.contents file)
  configs : ∀ c ∈ fs.ignoring.configs, SameSuccess (fs.contents c) (fs'.contents c)

namespace RulesMended

variable {fs fs' : FileSystem} {dir : Path}

theorem load (h : RulesMended fs fs') (ha : fs.Alike fs') (dir : Path) :
    (IgnoreLevel.load fs dir).1 = (IgnoreLevel.load fs' dir).1 := by
  have hfile : ∀ k, (RuleFile.load fs dir (IgnoreKind.file dir k)).1 =
      (RuleFile.load fs' dir (IgnoreKind.file dir k)).1 := fun k =>
    RuleFile.load_eq_of_rulesOf ha.ignoring (h.files dir k).rulesOf
  simp only [IgnoreLevel.load, hfile]

theorem rules (h : RulesMended fs fs') (ha : fs.Alike fs') :
    IgnoreSettings.rules fs = IgnoreSettings.rules fs' := by
  unfold IgnoreSettings.rules
  rw [ha.ignoring, ha.cwd, ← IgnoreSettings.excludesFile_congr ha.ignoring h.configs]
  cases hx : IgnoreSettings.excludesFile fs fs.ignoring.configs with
  | error c => rfl
  | ok file? =>
    cases file? with
    | none => rfl
    | some file => exact RuleFile.load_eq_of_rulesOf ha.ignoring (h.named file hx).rulesOf

theorem settled (h : RulesMended fs fs') (ha : fs.Alike fs')
    (hset : IgnoreSettings.Settled fs) : IgnoreSettings.Settled fs' := by
  obtain ⟨file?, hx⟩ := hset
  refine ⟨file?, ?_⟩
  rw [ha.ignoring, ← IgnoreSettings.excludesFile_congr ha.ignoring h.configs, hx]

theorem endless?_eq_none_iff (h : RulesMended fs fs') (dir : Path) :
    IgnoreKind.endless? fs dir = none ↔ IgnoreKind.endless? fs' dir = none := by
  rw [IgnoreKind.endless?_eq_none_iff, IgnoreKind.endless?_eq_none_iff]
  exact forall_congr' fun k => not_congr (h.files dir k).ends_iff

theorem wellFormed (h : RulesMended fs fs') (ha : fs.Alike fs') (hwf : WellFormed fs dir) :
    WellFormed fs' dir := by
  intro k c? hr'
  have hwf := hwf k
  have hk := h.files dir k
  rw [hr'] at hk
  rw [ha.ignoring]
  generalize hx : fs.contents (IgnoreKind.file dir k) = x at hk hwf
  cases hk with
  | same hs => exact hwf c? ((hs c?).2 rfl)
  | @lines c c' hm =>
    obtain ⟨_, hc, hfaults, hlimit⟩ := hwf (some c) rfl
    obtain rfl := Option.some.inj hc
    refine ⟨c', rfl, fun f hf => hfaults f (RuleFile.faults_of_mended hm hf), ?_⟩
    rw [← RuleFile.rules_of_mended hm]
    exact hlimit
  | @refused c hc =>
    obtain ⟨_, hc', -, hlimit⟩ := hwf (some c) rfl
    obtain rfl := Option.some.inj hc'
    rw [RuleFile.rules_readLines _ ⟨[]⟩] at hlimit
    exact absurd hlimit hc

theorem of_rewrote {l : Location} {mode : Nat} {c c' : Bytes} (hw : fs.Rewrote fs' l mode c c')
    (hg : fs.tree.get? l = some (.file mode c))
    (hm : MendedFile fs.ignoring.limit (.ok (some c)) (.ok (some c')))
    (hconfigs : ∀ p ∈ fs.ignoring.configs, ¬ fs'.Reaches p l) : RulesMended fs fs' := by
  have hcontents : ∀ p, MendedFile fs.ignoring.limit (fs.contents p) (fs'.contents p) := by
    intro p
    by_cases hp : fs'.Reaches p l
    · rw [FileSystem.contents_of_reaches hp hw.written,
        FileSystem.contents_of_reaches ((hw.reaches_self_iff hg).1 hp) hg]
      exact hm
    · exact .same (FileSystem.contents_of_sameSuccess (hw.look_of_not_reaches hp)).symm
  exact ⟨fun dir k => hcontents _, fun file _ => hcontents file, fun p hp =>
    (FileSystem.contents_of_sameSuccess (hw.look_of_not_reaches (hconfigs p hp))).symm⟩

end RulesMended

end ResourceManifest
