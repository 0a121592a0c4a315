import ResourceManifest.Proofs.Ignore.Opening
import ResourceManifest.Proofs.Ignore.Relative
import ResourceManifest.Proofs.Walk.Pruned

/-!
What ignore files say of an entry, without a walk: every directory on the way to it and around the
root is asked, and a file is left in a listing if nothing on its way is to be skipped. A walk that
carries its rules along with it comes to the same answer.
-/

set_option autoImplicit false

namespace ResourceManifest

/-- A directory whose ignore files count for an entry, and the names that lead to it from there. -/
structure IgnoreSource where
  dir : Path
  below : List Name

namespace IgnoreSource

def verdict? (fs : FileSystem) (k : IgnoreKind) (isDir : Bool) (v : IgnoreSource) :
    Option Verdict :=
  let rules := (RuleFile.load fs v.dir (k.file v.dir)).1.rules
  (rules.reverse.find? fun rule => rule.applies (Path.joinSegments v.below) isDir).map (·.verdict)

def walked (root : Path) (ns : List Name) : List IgnoreSource :=
  (List.range ns.length).reverse.map fun i => ⟨root.joinAll (ns.take i), ns.drop i⟩

def around : Location → List Name → List IgnoreSource
  | [], _ => []
  | n :: l, below => ⟨Location.path l, n :: below⟩ :: around l (n :: below)

/-- Those of them that are known. To know them takes the real path of the place, and a path that is
too long is not told. -/
def known (r : Location) (ns : List Name) : List IgnoreSource :=
  if (Location.path r).bytes.length < pathLimit then around r ns else []

end IgnoreSource

/-- What the ignore files say of the entry that the names lead to from `root`, which is at `r`. A
kind of files goes before another, and a near directory before one that is farther away; where they
say nothing, the rules that hold for every tree are asked, as seen from the current directory. -/
def decision? (fs : FileSystem) (root : Path) (r : Location) (isDir : Bool) (ns : List Name) :
    Option Verdict :=
  (IgnoreKind.all.findSome? fun k =>
    (IgnoreSource.walked root ns ++ IgnoreSource.known r ns).findSome?
      (IgnoreSource.verdict? fs k isDir)).or
    ((IgnoreSettings.rules fs).verdict? (RuleFile.withoutHere (root.joinAll ns).bytes) isDir)

def isSkipped (fs : FileSystem) (root : Path) (r : Location) (isDir : Bool) (ns : List Name) :
    Bool :=
  match decision? fs root r isDir ns with
  | some .skip => true
  | some .keep => false
  | none => ns.getLast?.any fun n => n.head? == some Path.dot

/-- Neither the file that the names lead to is skipped nor any directory on the way to it. -/
def isLeft (fs : FileSystem) (root : Path) (r : Location) (ns : List Name) : Bool :=
  (List.range ns.length).all fun i =>
    !isSkipped fs root r (i + 1 < ns.length) (ns.take (i + 1))

/-- Every ignore file in the directory comes to an end, no line of it is a pattern that cannot be
read, and its patterns are not too much for one matcher. -/
def WellFormed (fs : FileSystem) (dir : Path) : Prop :=
  ∀ k c?, fs.contents (IgnoreKind.file dir k) = .ok c? → ∃ content, c? = some content ∧
    let read := RuleFile.readLines (IgnoreKind.file dir k) 1 (byteLines content)
    (∀ f ∈ read.faults, f.problem = .notText) ∧
      fs.ignoring.limit.refusal? (read.rules.map Rule.glob) = none

namespace RuleFile

theorem faults_eq_of_notText {file : Path} {n : Nat} {lines : List Bytes}
    (h : ∀ f ∈ (readLines file n lines).faults, f.problem = .notText) :
    (readLines file n lines).faults = [] ∨
      ∃ m, (readLines file n lines).faults = [⟨file, m, .notText⟩] := by
  induction lines generalizing n with
  | nil => exact .inl rfl
  | cons l ls ih =>
    unfold readLines at h ⊢
    cases hd : Utf8.decode? l with
    | none => exact .inr ⟨n, rfl⟩
    | some line =>
      simp only [hd] at h ⊢
      cases hp : Rule.parse? (if n = 1 then withoutOrderMarks line else line) with
      | error p =>
        simp only [hp] at h
        have hf := h _ List.mem_cons_self
        cases hf
      | ok rule =>
        cases rule with
        | none =>
          simp only [hp] at h ⊢
          exact ih h
        | some rule =>
          simp only [hp] at h ⊢
          exact ih h

end RuleFile

namespace WellFormed

variable {fs : FileSystem} {dir : Path}

theorem load_faults (h : WellFormed fs dir) : (IgnoreLevel.load fs dir).2 = [] := by
  refine List.flatMap_eq_nil_iff.2 fun k _ => ?_
  show (RuleFile.load fs dir (IgnoreKind.file dir k)).2 = []
  unfold RuleFile.load
  cases hr : fs.contents (IgnoreKind.file dir k) with
  | error f => simp only [List.map_nil, fs.ignoring.limit.empty, RuleFile.reported]
  | ok c? =>
    obtain ⟨content, rfl, hfaults, hlimit⟩ := h k c? hr
    simp only [hlimit]
    rcases RuleFile.faults_eq_of_notText hfaults with hf | ⟨m, hf⟩
    · rw [hf]
      rfl
    · rw [hf]
      rfl

theorem endless? (h : WellFormed fs dir) : IgnoreKind.endless? fs dir = none := by
  refine IgnoreKind.endless?_eq_none_iff.2 fun k hk => ?_
  obtain ⟨content, hc, -⟩ := h k none hk
  cases hc

end WellFormed

def Node.contents? : Node → Option (Option Bytes)
  | .file _ content => some (some content)
  | .dir _ => none
  | .link _ => none
  | .device .null _ => some (some [])
  | _ => some none

def FileTree.contents (t : FileTree) : List (Option Bytes) := t.nodes.filterMap (·.2.contents?)

theorem exists_node_of_contents {fs : FileSystem} {p : Path} {c? : Option Bytes}
    (h : fs.contents p = .ok c?) : c? ∈ fs.tree.contents := by
  unfold FileSystem.contents at h
  cases hs : fs.stat p with
  | error f => simp [hs, bind, Except.bind] at h
  | ok n =>
    obtain ⟨l, hl⟩ := FileSystem.stat_eq_ok_iff.1 hs
    obtain ⟨hr, hg⟩ := FileSystem.look_follow_eq_ok_iff.1 hl
    have hlink := hr.isLink hg
    have hc : n.contents? = some c? := by
      simp only [hs, bind, Except.bind] at h
      cases n with
      | dir mode => cases h
      | link target => cases hlink
      | device kind mode => cases kind <;> exact congrArg some (Except.ok.inj h)
      | _ => exact congrArg some (Except.ok.inj h)
    cases l with
    | nil =>
      rw [FileTree.get?_nil] at hg
      obtain rfl := Option.some.inj hg
      cases hc
    | cons name l => exact List.mem_filterMap.2 ⟨_, FileTree.get?_cons_eq_some_iff.1 hg, hc⟩

theorem RuleFile.faults_readLines_eq_nil (file file' : Path) {n : Nat} {lines : List Bytes}
    (h : (readLines file n lines).faults = []) : (readLines file' n lines).faults = [] := by
  induction lines generalizing n with
  | nil => rfl
  | cons l ls ih =>
    unfold readLines at h ⊢
    cases hd : Utf8.decode? l with
    | none => simp [hd] at h
    | some line =>
      simp only [hd] at h ⊢
      cases hp : Rule.parse? (if n = 1 then withoutOrderMarks line else line) with
      | error p => simp [hp] at h
      | ok rule =>
        cases rule <;> simp only [hp] at h ⊢ <;> exact ih h

def isWellFormed (limit : PatternLimit) : Option Bytes → Bool
  | none => false
  | some content =>
    let read := RuleFile.readLines ⟨[]⟩ 1 (byteLines content)
    read.faults.isEmpty && (limit.refusal? (read.rules.map Rule.glob)).isNone

theorem wellFormed_of_reads {fs : FileSystem} {dir : Path}
    (h : ∀ k, ∀ c? ∈ (fs.contents (IgnoreKind.file dir k)).toOption,
      isWellFormed fs.ignoring.limit c? = true) : WellFormed fs dir := by
  intro k c? hr
  have hc := h k c? (by rw [hr]; rfl)
  cases c? with
  | none => cases hc
  | some content =>
    simp only [isWellFormed, Bool.and_eq_true, List.isEmpty_iff, Option.isNone_iff_eq_none] at hc
    refine ⟨content, rfl, ?_, ?_⟩
    · rw [RuleFile.faults_readLines_eq_nil ⟨[]⟩ _ hc.1]
      simp
    · rw [RuleFile.rules_readLines _ ⟨[]⟩]
      exact hc.2

theorem wellFormed_of_contents {fs : FileSystem}
    (h : fs.tree.contents.all (isWellFormed fs.ignoring.limit) = true) (dir : Path) :
    WellFormed fs dir := by
  refine wellFormed_of_reads fun k c? hr => ?_
  cases hc : fs.contents (IgnoreKind.file dir k) with
  | error f => simp [hc, Except.toOption] at hr
  | ok x =>
    obtain rfl : x = c? := by simpa [hc, Except.toOption] using hr
    exact List.all_eq_true.1 h x (exists_node_of_contents hc)

section Level

variable {fs : FileSystem} {k : IgnoreKind} {isDir : Bool}

theorem verdict?_load {dir : Path} {path : Bytes} {below : List Name}
    (h : ∀ rules, RuleFile.strip ⟨RuleFile.withoutHere dir.bytes, rules⟩ path =
      Path.joinSegments below) :
    ((IgnoreLevel.load fs dir).1.rules k).verdict? path isDir =
      IgnoreSource.verdict? fs k isDir ⟨dir, below⟩ := by
  have hs : ((IgnoreLevel.load fs dir).1.rules k).strip path = Path.joinSegments below := by
    rw [← h ((IgnoreLevel.load fs dir).1.rules k).rules]
    simp only [RuleFile.strip, IgnoreLevel.load, RuleFile.load_root]
  unfold RuleFile.verdict? IgnoreSource.verdict?
  simp only [hs]
  rfl

theorem verdictOf?_around {r : Location} {ns : List Name} (hr : ∀ n ∈ r, isEntryName n = true)
    (hne : ns ≠ []) (hns : ∀ n ∈ ns, isEntryName n = true) :
    IgnoreState.verdictOf?
        ((Location.around r).map fun m => (IgnoreLevel.load fs (Location.path m)).1) k
        ((Location.path r).joinAll ns).bytes isDir =
      (IgnoreSource.around r ns).findSome? (IgnoreSource.verdict? fs k isDir) := by
  induction r generalizing ns with
  | nil => rfl
  | cons n l ih =>
    have hl : ∀ m ∈ l, isEntryName m = true := fun m hm => hr m (by simp [hm])
    have hbelow : ∀ m ∈ n :: ns, isEntryName m = true := by
      intro m hm
      rcases List.mem_cons.1 hm with rfl | hm
      · exact hr m (by simp)
      · exact hns m hm
    have htop : RuleFile.Plain ⟨[Path.slash]⟩ :=
      RuleFile.plain_of_notMem (by simp) (by decide)
    have hpath : (Location.path (n :: l)).joinAll ns = (Location.path l).joinAll (n :: ns) := by
      rw [Location.path_eq_joinAll hr, Location.path_eq_joinAll hl, ← Path.joinAll_append,
        ← Path.joinAll_append]
      simp
    have hstrip : ∀ rules, RuleFile.strip ⟨RuleFile.withoutHere (Location.path l).bytes, rules⟩
        ((Location.path l).joinAll (n :: ns)).bytes = Path.joinSegments (n :: ns) := by
      intro rules
      have hs := @RuleFile.strip_below _ rules _ _ htop
        (fun m hm => hl m (List.mem_reverse.1 hm)) (List.cons_ne_nil n ns) hbelow
      have habs : RuleFile.withoutHere
          ((⟨[Path.slash]⟩ : Path).joinAll (l.reverse ++ n :: ns)).bytes =
          ((Location.path l).joinAll (n :: ns)).bytes := by
        rw [RuleFile.withoutHere_of_notMem, Path.joinAll_append, ← Location.path_eq_joinAll hl]
        refine RuleFile.here_notMem_joinAll (by simp) (by decide) fun m hm => ?_
        exact (List.mem_append.1 hm).elim (fun hm => hl m (List.mem_reverse.1 hm)) (hbelow m)
      rw [habs, ← Location.path_eq_joinAll hl] at hs
      exact hs
    have hi := ih hl (List.cons_ne_nil n ns) hbelow
    rw [hpath, IgnoreSource.around, Location.around, List.map_cons, IgnoreState.verdictOf?,
      List.findSome?_cons, List.findSome?_cons, verdict?_load hstrip]
    cases IgnoreSource.verdict? fs k isDir ⟨Location.path l, n :: ns⟩ with
    | some v => rfl
    | none => exact hi

end Level

namespace IgnoreState

/-- The directories walked when the names have been gone through, the last one first. -/
def walkedDirs (root : Path) (ds : List Name) : List Path :=
  (List.range (ds.length + 1)).reverse.map fun i => root.joinAll (ds.take i)

/-- What is known in a directory below the root, from what was known before the root. -/
def along (fs : FileSystem) (s : IgnoreState) (ds : List Name) : IgnoreState :=
  { s with walked := (walkedDirs s.root ds).map fun d => (IgnoreLevel.load fs d).1 }

theorem walkedDirs_snoc (root : Path) (ds : List Name) (n : Name) :
    walkedDirs root (ds ++ [n]) = root.joinAll (ds ++ [n]) :: walkedDirs root ds := by
  have htake : ∀ i ∈ (List.range (ds.length + 1)).reverse,
      root.joinAll ((ds ++ [n]).take i) = root.joinAll (ds.take i) := by
    intro i hi
    have hlt := List.mem_range.1 (List.mem_reverse.1 hi)
    rw [List.take_append_of_le_length (by omega)]
  rw [walkedDirs, walkedDirs, ← List.map_congr_left htake, List.length_append,
    List.length_singleton, List.range_succ, List.reverse_append, List.reverse_singleton,
    List.singleton_append, List.map_cons, List.take_of_length_le (by simp)]

variable {fs : FileSystem} {s : IgnoreState} {r : Location} {ds : List Name} {n : Name}

theorem enter_root (hw : s.walked = []) : enter fs s s.root = along fs s [] := by
  simp [enter, along, hw, walkedDirs]

theorem enter_along : enter fs (along fs s ds) (s.root.joinAll (ds ++ [n])) =
    along fs s (ds ++ [n]) := by
  simp only [along, walkedDirs_snoc, List.map_cons]
  rfl

theorem verdictOf?_along {k : IgnoreKind} {isDir : Bool} (hroot : RuleFile.Plain s.root)
    (hns : ∀ m ∈ ds ++ [n], isEntryName m = true) :
    verdictOf? (along fs s ds).walked k
        (RuleFile.withoutHere (s.root.joinAll (ds ++ [n])).bytes) isDir =
      (IgnoreSource.walked s.root (ds ++ [n])).findSome? (IgnoreSource.verdict? fs k isDir) := by
  have hlevel : ∀ i ∈ (List.range (ds.length + 1)).reverse,
      ((IgnoreLevel.load fs (s.root.joinAll (ds.take i))).1.rules k).verdict?
          (RuleFile.withoutHere (s.root.joinAll (ds ++ [n])).bytes) isDir =
        IgnoreSource.verdict? fs k isDir
          ⟨s.root.joinAll ((ds ++ [n]).take i), (ds ++ [n]).drop i⟩ := by
    intro i hi
    have hlt := List.mem_range.1 (List.mem_reverse.1 hi)
    have htake : (ds ++ [n]).take i = ds.take i := List.take_append_of_le_length (by omega)
    have hdrop : (ds ++ [n]).drop i ≠ [] := by
      refine List.ne_nil_of_length_pos ?_
      simp only [List.length_drop, List.length_append, List.length_singleton]
      omega
    have hpre : ∀ m ∈ (ds ++ [n]).take i, isEntryName m = true :=
      fun m hm => hns m (List.mem_of_mem_take hm)
    have hbelow : ∀ m ∈ (ds ++ [n]).drop i, isEntryName m = true :=
      fun m hm => hns m (List.mem_of_mem_drop hm)
    rw [← htake]
    refine verdict?_load fun rules => ?_
    have hs := @RuleFile.strip_below s.root rules _ _ hroot hpre hdrop hbelow
    rwa [List.take_append_drop] at hs
  unfold verdictOf? along IgnoreSource.walked walkedDirs
  rw [List.map_map, List.findSome?_map, List.findSome?_map, List.length_append,
    List.length_singleton]
  exact findSome?_eq_of_mem hlevel

structure Knows (fs : FileSystem) (s : IgnoreState) (r : Location) : Prop where
  around : if (Location.path r).bytes.length < pathLimit then
      s.base = Location.path r ∧
        s.around = (Location.around r).map fun m => (IgnoreLevel.load fs (Location.path m)).1
    else s.around = []
  everywhere : s.everywhere = IgnoreSettings.rules fs

theorem knows_atRoot {root : Path} {mode : Nat} (h : fs.look .follow root = .ok (r, .dir mode)) :
    Knows fs (atRoot fs root).1 r where
  around := by
    simp only [atRoot, surroundings_of_dir h]
    split
    · exact ⟨rfl, by simp⟩
    · rfl
  everywhere := rfl

theorem Knows.verdictOf?_around {k : IgnoreKind} {isDir : Bool} {ns : List Name}
    (h : Knows fs s r) (hroot : RuleFile.Plain s.root) (hr : ∀ m ∈ r, isEntryName m = true)
    (hne : ns ≠ []) (hns : ∀ m ∈ ns, isEntryName m = true) :
    verdictOf? s.around k (s.fromTop (RuleFile.withoutHere (s.root.joinAll ns).bytes)) isDir =
      (IgnoreSource.known r ns).findSome? (IgnoreSource.verdict? fs k isDir) := by
  have haround := h.around
  unfold IgnoreSource.known
  split at haround
  · next hlen =>
    rw [if_pos hlen, fromTop_joinAll hroot haround.1 hne hns, haround.2]
    exact ResourceManifest.verdictOf?_around hr hne hns
  · next hlen =>
    rw [if_neg hlen, haround]
    rfl

theorem skips_along {isDir : Bool} (hroot : RuleFile.Plain s.root) (hs : Knows fs s r)
    (hr : ∀ m ∈ r, isEntryName m = true) (hns : ∀ m ∈ ds ++ [n], isEntryName m = true) :
    skips (along fs s ds) (s.root.joinAll (ds ++ [n])) isDir =
      isSkipped fs s.root r isDir (ds ++ [n]) := by
  have hverdict : (along fs s ds).verdict? (s.root.joinAll (ds ++ [n])) isDir =
      decision? fs s.root r isDir (ds ++ [n]) := by
    have hkinds : (IgnoreKind.all.findSome? fun k =>
        (verdictOf? (along fs s ds).walked k
            (RuleFile.withoutHere (s.root.joinAll (ds ++ [n])).bytes) isDir).or
          (verdictOf? s.around k
            (s.fromTop (RuleFile.withoutHere (s.root.joinAll (ds ++ [n])).bytes)) isDir)) =
        IgnoreKind.all.findSome? fun k =>
          (IgnoreSource.walked s.root (ds ++ [n]) ++ IgnoreSource.known r (ds ++ [n])).findSome?
            (IgnoreSource.verdict? fs k isDir) := by
      refine findSome?_eq_of_mem fun k _ => ?_
      rw [List.findSome?_append, verdictOf?_along hroot hns,
        hs.verdictOf?_around hroot hr (by simp) hns]
    rw [decision?, ← hkinds, ← hs.everywhere]
    rfl
  have hne := Path.joinAll_bytes_ne_nil hroot.bytes_ne_nil ds
  unfold skips isSkipped
  rw [hverdict, Path.joinAll_snoc, isHidden_join hne (hns n (by simp))]
  cases decision? fs s.root r isDir (ds ++ [n]) with
  | none => simp
  | some v => cases v <;> rfl

theorem passes_along (hroot : RuleFile.Plain s.root) (hs : Knows fs s r)
    (hr : ∀ m ∈ r, isEntryName m = true) {ns : List Name}
    (hns : ∀ m ∈ ds ++ ns, isEntryName m = true) :
    Walk.passes fs guard (along fs s ds) (s.root.joinAll ds) ns =
      (List.range ns.length).all fun i =>
        !isSkipped fs s.root r (i + 1 < ns.length) (ds ++ ns.take (i + 1)) := by
  -- `ds` are the names gone through, and the rules along them are those the walk carries.
  induction ns generalizing ds with
  | nil => rfl
  | cons m ns ih =>
    have hsnoc : ∀ k ∈ ds ++ [m], isEntryName k = true := by
      intro k hk
      rcases List.mem_append.1 hk with hk | hk
      · exact hns k (by simp [hk])
      · obtain rfl := List.mem_singleton.1 hk
        exact hns k (by simp)
    have hi := @ih (ds ++ [m]) (by simpa using hns)
    have hdir : (!ns.isEmpty) = decide (0 + 1 < (m :: ns).length) := by
      cases ns <;> simp
    rw [Walk.passes, ← Path.joinAll_snoc, List.length_cons, List.range_succ_eq_map, List.all_cons,
      List.all_map]
    have hskip : guard.skips (along fs s ds) (s.root.joinAll (ds ++ [m])) (!ns.isEmpty) =
        isSkipped fs s.root r (!ns.isEmpty) (ds ++ [m]) := skips_along hroot hs hr hsnoc
    have hent : guard.enter fs (along fs s ds) (s.root.joinAll (ds ++ [m])) =
        along fs s (ds ++ [m]) := enter_along
    rw [hskip, hent, hi, hdir]
    simp [Function.comp_def]

end IgnoreState

end ResourceManifest
