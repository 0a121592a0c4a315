import ResourceManifest.Proofs.FileSystem.Write
import ResourceManifest.Proofs.Ignore.Opening
import ResourceManifest.Proofs.Ignore.Relative

set_option autoImplicit false

namespace ResourceManifest

def IgnoreKind.entry : IgnoreKind → Name
  | .ignore => Utf8.encode ".ignore"
  | .gitignore => Utf8.encode ".gitignore"
  | .exclude => Utf8.encode ".git"

theorem IgnoreKind.isEntryName_entry (k : IgnoreKind) : isEntryName k.entry = true := by
  cases k <;> decide

theorem IgnoreKind.head?_entry (k : IgnoreKind) : k.entry.head? = some Path.dot := by
  cases k <;> decide

/-- The way from a directory to its ignore file of a kind. -/
def IgnoreKind.path : IgnoreKind → Path
  | .ignore => .ofString ".ignore"
  | .gitignore => .ofString ".gitignore"
  | .exclude => .ofString ".git/info/exclude"

theorem IgnoreKind.file_eq_join (k : IgnoreKind) (dir : Path) :
    IgnoreKind.file dir k = dir.join k.path.bytes := by
  cases k <;> rfl

theorem IgnoreKind.exists_names_path (k : IgnoreKind) : ∃ rest, k.path.names = k.entry :: rest := by
  cases k with
  | ignore => exact ⟨[], by decide +kernel⟩
  | gitignore => exact ⟨[], by decide +kernel⟩
  | exclude => exact ⟨[Utf8.encode "info", Utf8.encode "exclude"], by decide +kernel⟩

theorem IgnoreKind.nul_notMem_path (k : IgnoreKind) : 0 ∉ k.path.bytes := by
  cases k <;> decide +kernel

section Read

variable {fs : FileSystem} {dir : Path} {l : Location} {i : Nat}

theorem exists_get?_of_leads {t : FileTree} {m : Location} {first : Name} {rest : List Bytes}
    (hfirst : isEntryName first = true) (h : Leads t i l (first :: rest) m) :
    ∃ d, t.get? (first :: l) = some d := by
  obtain ⟨h₁, h₂, h₃, -⟩ := FileTree.isDots_of_isEntryName hfirst
  cases h with
  | stay _ hs _ => exact absurd hs (by simp [h₁, h₂])
  | up _ _ => exact absurd rfl h₃
  | entry hg _ _ => exact ⟨_, hg⟩
  | link hg _ => exact ⟨_, hg⟩

theorem FileSystem.exists_get?_of_contents_join {x first : Bytes} {c? : Option Bytes}
    {rest : List Name}
    (hd : dir.bytes ≠ []) (hl : Leads fs.tree i (fs.start dir) dir.names l)
    (hx : (⟨x⟩ : Path).names = first :: rest) (hfirst : isEntryName first = true)
    (h : fs.contents (dir.join x) = .ok c?) : ∃ d, fs.tree.get? (first :: l) = some d := by
  obtain ⟨n, hstat⟩ := FileSystem.exists_stat_of_contents h
  obtain ⟨m, hlook⟩ := FileSystem.stat_eq_ok_iff.1 hstat
  obtain ⟨hr, -⟩ := FileSystem.look_follow_eq_ok_iff.1 hlook
  obtain ⟨j, -, hm⟩ := hr.leads_names
  have hstart : fs.start (dir.join x) = fs.start dir := by
    rw [start, start, Path.isAbsolute_join _ hd]
  rw [hstart, Path.names_join_path hd, hx] at hm
  obtain ⟨l', _, _, hl', hm', -⟩ := hm.split rfl
  obtain rfl := (hl.deterministic hl').1
  exact exists_get?_of_leads hfirst hm'

theorem FileSystem.contents_ignore_of_no_entry {k : IgnoreKind} (hd : dir.bytes ≠ [])
    (hl : Leads fs.tree i (fs.start dir) dir.names l) (hno : fs.tree.get? (k.entry :: l) = none) :
    ∃ f, fs.contents (IgnoreKind.file dir k) = .error f := by
  obtain ⟨rest, hx⟩ := k.exists_names_path
  cases hr : fs.contents (IgnoreKind.file dir k) with
  | error f => exact ⟨f, rfl⟩
  | ok c? =>
    rw [k.file_eq_join] at hr
    obtain ⟨d, hg⟩ := FileSystem.exists_get?_of_contents_join hd hl hx k.isEntryName_entry hr
    rw [hno] at hg
    cases hg

theorem IgnoreKind.endless?_of_no_entry (hd : dir.bytes ≠ [])
    (hl : Leads fs.tree i (fs.start dir) dir.names l)
    (hno : ∀ k : IgnoreKind, fs.tree.get? (k.entry :: l) = none) : endless? fs dir = none := by
  refine endless?_eq_none_iff.2 fun k hk => ?_
  obtain ⟨f, hf⟩ := FileSystem.contents_ignore_of_no_entry hd hl (hno k)
  cases hk.symm.trans hf

theorem IgnoreKind.endless?_of_too_long (hnul : 0 ∉ dir.bytes)
    (hlen : pathLimit ≤ dir.bytes.length) : endless? fs dir = none := by
  refine endless?_eq_none_iff.2 fun k hk => ?_
  obtain ⟨n, hstat⟩ := FileSystem.exists_stat_of_contents hk
  obtain ⟨m, hlook⟩ := FileSystem.stat_eq_ok_iff.1 hstat
  have hle := Path.length_join (p := dir) (n := k.path.bytes)
  rw [k.file_eq_join, FileSystem.look_of_too_long (Path.nul_notMem_join hnul k.nul_notMem_path)
    (by omega)] at hlook
  cases hlook

end Read

namespace IgnoreLevel

def Silent (level : IgnoreLevel) : Prop := ∀ k, (level.rules k).rules = []

theorem load_of_no_entry {fs : FileSystem} {dir : Path} {l : Location} {i : Nat}
    (hd : dir.bytes ≠ []) (hl : Leads fs.tree i (fs.start dir) dir.names l)
    (hno : ∀ k : IgnoreKind, fs.tree.get? (k.entry :: l) = none) :
    (load fs dir).1.Silent ∧ (load fs dir).2 = [] := by
  have hload : ∀ k, RuleFile.load fs dir (IgnoreKind.file dir k) =
      (⟨RuleFile.withoutHere dir.bytes, []⟩, []) := by
    intro k
    obtain ⟨f, hf⟩ := FileSystem.contents_ignore_of_no_entry hd hl (hno k)
    simp only [RuleFile.load, hf, List.map_nil, fs.ignoring.limit.empty]
    rfl
  refine ⟨fun k => ?_, ?_⟩
  · simp only [load, hload]
  · simp only [load, hload]
    rfl

theorem Silent.verdict? {level : IgnoreLevel} (h : level.Silent) (k : IgnoreKind) (path : Bytes)
    (isDir : Bool) : (level.rules k).verdict? path isDir = none := by
  simp only [RuleFile.verdict?, h k, List.reverse_nil, List.find?_nil, Option.map_none]

end IgnoreLevel

namespace IgnoreState

structure Silent (s : IgnoreState) : Prop where
  walked : ∀ level ∈ s.walked, level.Silent
  around : ∀ level ∈ s.around, level.Silent
  everywhere : s.everywhere.rules = []

theorem verdictOf?_of_silent {levels : List IgnoreLevel} (h : ∀ level ∈ levels, level.Silent)
    (k : IgnoreKind) (path : Bytes) (isDir : Bool) : verdictOf? levels k path isDir = none :=
  List.findSome?_eq_none_iff.2 fun level hlevel => (h level hlevel).verdict? k path isDir

theorem Silent.skips {s : IgnoreState} (h : s.Silent) {p : Path} {n : Name} {isDir : Bool}
    (hp : p.bytes ≠ []) (hn : isEntryName n = true) (hdot : n.head? ≠ some Path.dot) :
    s.skips (p.join n) isDir = false := by
  have hverdict : s.verdict? (p.join n) isDir = none := by
    have hkinds : (IgnoreKind.all.findSome? fun k =>
        (verdictOf? s.walked k (RuleFile.withoutHere (p.join n).bytes) isDir).or
          (verdictOf? s.around k (s.fromTop (RuleFile.withoutHere (p.join n).bytes)) isDir)) =
        none := by
      refine List.findSome?_eq_none_iff.2 fun k _ => ?_
      rw [verdictOf?_of_silent h.walked, verdictOf?_of_silent h.around]
      rfl
    simp only [IgnoreState.verdict?, hkinds, RuleFile.verdict?, h.everywhere, List.reverse_nil,
      List.find?_nil, Option.map_none, Option.or_none]
  rw [IgnoreState.skips, hverdict]
  simp [isHidden_join hp hn, hdot]

theorem Silent.enter {s : IgnoreState} {fs : FileSystem} {dir : Path} (h : s.Silent)
    (hload : (IgnoreLevel.load fs dir).1.Silent) : (s.enter fs dir).Silent := by
  refine ⟨fun level hlevel => ?_, h.around, h.everywhere⟩
  rcases List.mem_cons.1 hlevel with rfl | hlevel
  · exact hload
  · exact h.walked level hlevel

end IgnoreState

theorem Location.suffix_of_mem_around {l m : Location} (h : m ∈ Location.around l) : m <:+ l := by
  induction l with
  | nil => cases h
  | cons n l ih =>
    rcases List.mem_cons.1 h with rfl | h
    · exact List.suffix_cons n m
    · exact (ih h).trans (List.suffix_cons n l)

theorem FileSystem.leads_path {fs : FileSystem} {l : Location} (hl : fs.tree.isDir l = true) :
    Leads fs.tree 0 (fs.start (Location.path l)) (Location.path l).names l := by
  have hstart : fs.start (Location.path l) = [] := by
    rw [start, Location.isAbsolute_path]
    rfl
  rw [hstart, Location.names_path (FileTree.isEntryName_of_isDir hl)]
  exact Leads.of_isDir hl

theorem FileSystem.reaches_path {fs : FileSystem} {l : Location} (hl : fs.tree.isDir l = true)
    (hlen : (Location.path l).bytes.length < pathLimit) : fs.Reaches (Location.path l) l := by
  refine ⟨Location.nul_notMem_path (FileTree.isEntryName_of_isDir hl),
    Location.path_bytes_ne_nil l, hlen, 0, Nat.zero_le _, ?_⟩
  rcases (Location.path l).steps_eq with hs | hs
  · rw [hs]
    exact leads_path hl
  · rw [hs]
    exact (leads_path hl).append (.stay hl (.inl rfl) .done)

/-- Without ignore files in the directories around the root, and without rules that hold for every
tree, no rule is known before it is entered. -/
theorem IgnoreState.silent_atRoot {fs : FileSystem} {root : Path}
    (hno : ∀ r mode, fs.look .follow root = .ok (r, .dir mode) → ∀ m ∈ Location.around r,
      ∀ k : IgnoreKind, fs.tree.get? (k.entry :: m) = none)
    (hall : (IgnoreSettings.rules fs).rules = []) :
    (atRoot fs root).1.Silent ∧ (atRoot fs root).2 = [] ∧ endlessAround? fs root = none := by
  have haround : ∀ m ∈ (surroundings fs root).2,
      Leads fs.tree 0 (fs.start (Location.path m)) (Location.path m).names m ∧
        ∀ k : IgnoreKind, fs.tree.get? (k.entry :: m) = none := by
    intro m hm
    obtain ⟨r, mode, hl, hm⟩ := mem_surroundings hm
    have hr := FileTree.isDir_iff.2 ⟨mode, (FileSystem.look_follow_eq_ok_iff.1 hl).2⟩
    exact ⟨FileSystem.leads_path (FileTree.isDir_of_suffix hr (Location.suffix_of_mem_around hm)),
      hno r mode hl m hm⟩
  have hload : ∀ m ∈ (surroundings fs root).2,
      (IgnoreLevel.load fs (Location.path m)).1.Silent ∧
        (IgnoreLevel.load fs (Location.path m)).2 = [] := fun m hm =>
    IgnoreLevel.load_of_no_entry (Location.path_bytes_ne_nil m) (haround m hm).1 (haround m hm).2
  refine ⟨⟨fun level hlevel => ?_, fun level hlevel => ?_, hall⟩, ?_, ?_⟩
  · cases hlevel
  · obtain ⟨x, hx, rfl⟩ := List.mem_map.1 hlevel
    obtain ⟨m, hm, rfl⟩ := List.mem_map.1 hx
    exact (hload m hm).1
  · refine List.flatMap_eq_nil_iff.2 fun x hx => ?_
    obtain ⟨m, hm, rfl⟩ := List.mem_map.1 (List.mem_reverse.1 hx)
    exact (hload m hm).2
  · refine endlessAround?_eq_none_iff.2 fun m hm => ?_
    exact IgnoreKind.endless?_of_no_entry (Location.path_bytes_ne_nil m) (haround m hm).1
      (haround m hm).2

end ResourceManifest
