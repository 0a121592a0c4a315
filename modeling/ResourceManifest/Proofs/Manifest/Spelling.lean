import ResourceManifest.Proofs.FileSystem.Spelling
import ResourceManifest.Proofs.Manifest.Seen
import ResourceManifest.Proofs.Manifest.Within
import ResourceManifest.Proofs.Walk.Spelling

/-!
A directory under two spellings. Every path of a walk begins with the root as it is spelled, and so
does what the rules are matched against; the listing that heeds ignore files is the same all the
same, unless the spelling has a meaning of its own or the system takes no path so long.
-/

set_option autoImplicit false

namespace ResourceManifest

variable {fs : FileSystem} {root root' : Path} {r : Location} {mode : Nat} {followLinks : Bool}

section Reading

variable {ns : List Name}

theorem isSkipped_of_readsAlike (isDir : Bool)
    (h : ∀ ms, ms <+: ns → ms ≠ ns → ReadsAlike fs (root.joinAll ms) (root'.joinAll ms))
    (hall : (IgnoreSettings.rules fs).verdict? (RuleFile.withoutHere (root.joinAll ns).bytes) isDir =
      (IgnoreSettings.rules fs).verdict? (RuleFile.withoutHere (root'.joinAll ns).bytes) isDir) :
    isSkipped fs root r isDir ns = isSkipped fs root' r isDir ns := by
  have hdecision : decision? fs root r isDir ns = decision? fs root' r isDir ns := by
    unfold decision?
    rw [hall]
    refine congrArg (Option.or · _) (findSome?_eq_of_mem fun k _ => ?_)
    have hwalked : (IgnoreSource.walked root ns).findSome? (IgnoreSource.verdict? fs k isDir) =
        (IgnoreSource.walked root' ns).findSome? (IgnoreSource.verdict? fs k isDir) := by
      unfold IgnoreSource.walked
      rw [List.findSome?_map, List.findSome?_map]
      refine findSome?_eq_of_mem fun i hi => ?_
      have hlt := List.mem_range.1 (List.mem_reverse.1 hi)
      have hne : ns.take i ≠ ns := fun he => by
        have hlen := congrArg List.length he
        rw [List.length_take] at hlen
        omega
      exact IgnoreSource.verdict?_of_readsAlike (h _ (List.take_prefix i ns) hne) k isDir _
    rw [List.findSome?_append, List.findSome?_append, hwalked]
  simp only [isSkipped, hdecision]

end Reading

namespace Walk

variable {v : Visit IgnoreState} {up : List (Visit IgnoreState)} {ms : List Name}

theorem Visited.known_eq (hv : VisitedIgnoring fs followLinks root v up) :
    v.known = (IgnoreState.atRoot fs root).1.along fs v.names := by
  induction hv with
  | root _ _ _ => exact IgnoreState.enter_atRoot
  | @entry v up name n d l _ _ _ _ _ ih =>
    simp only [ih, child_eq]
    exact IgnoreState.enter_along_atRoot

theorem Visited.exists_of_prefix {σ : Type} {guard : Guard σ} {s : σ} {v : Visit σ}
    {up : List (Visit σ)} (hv : Visited fs followLinks guard s root v up) (hms : ms <+: v.names) :
    ∃ w ws, Visited fs followLinks guard s root w ws ∧ w.names = ms := by
  induction hv with
  | root hl hd hk =>
    obtain rfl := List.prefix_nil.1 hms
    exact ⟨_, _, .root hl hd hk, rfl⟩
  | entry h hg hk hs hl ih =>
    rcases List.prefix_concat_iff.1 hms with rfl | hms
    · exact ⟨_, _, .entry h hg hk hs hl, rfl⟩
    · exact ih hms

theorem Visited.location_eq {σ : Type} {guard : Guard σ} {s : σ} {v : Visit σ}
    {up : List (Visit σ)} (hno : ∀ l target, fs.tree.get? l ≠ some (.link target)) {d : Node}
    (hl : fs.look .follow root = .ok (r, d)) (hv : Visited fs followLinks guard s root v up) :
    v.location = v.names.reverse ++ r := by
  induction hv with
  | root hl' _ _ =>
    cases hl.symm.trans hl'
    rfl
  | @entry v up name n d' l hv hg hk _ hl' ih =>
    have hn : n.isLink = false := by
      cases n with
      | link target => exact absurd hg (hno _ target)
      | _ => rfl
    simp only [(isDir_of_kind hv.reaches.1 hg hk hl').2 hn, ih, List.reverse_concat,
      List.cons_append]

end Walk

/-- No path that a walk looks up is too long: neither those of the ignore files that a directory may
hold, which is visited or met, nor those of links. -/
structure Walk.Short (fs : FileSystem) (followLinks : Bool) (root : Path) : Prop where
  files : ∀ v up, VisitedIgnoring fs followLinks root v up → ∀ k,
    (IgnoreKind.file (root.joinAll v.names) k).bytes.length < pathLimit
  links : ∀ v up, VisitedIgnoring fs followLinks root v up → ∀ name target,
    fs.tree.get? (name :: v.location) = some (.link target) →
      (v.child root name).bytes.length < pathLimit
  met : ∀ v up, VisitedIgnoring fs followLinks root v up → ∀ name n,
    fs.tree.get? (name :: v.location) = some n →
      n.isDir = true ∨ n.isLink = true ∧ followLinks = true ∧
        (∃ l d, fs.look .follow (v.child root name) = .ok (l, d) ∧ d.isDir = true) →
      ∀ k, (IgnoreKind.file (v.child root name) k).bytes.length < pathLimit

theorem Walk.short_of_no_links (hno : ∀ l target, fs.tree.get? l ≠ some (.link target)) {d : Node}
    (hl : fs.look .follow root = .ok (r, d))
    (hlen : ∀ ns, fs.tree.isDir (ns.reverse ++ r) = true → ∀ k,
      (IgnoreKind.file (root.joinAll ns) k).bytes.length < pathLimit) :
    Short fs followLinks root where
  files v up hv := hlen v.names (by
    rw [← hv.location_eq hno hl]
    exact hv.reaches.2)
  links v up _ name target hg := absurd hg (hno _ target)
  met v up hv name n hg hn k := by
    rw [child_eq]
    refine hlen (v.names ++ [name]) ?_ k
    rw [List.reverse_concat, List.cons_append, ← hv.location_eq hno hl]
    cases n with
    | dir mode => exact FileTree.isDir_iff.2 ⟨mode, hg⟩
    | link target => exact absurd hg (hno _ target)
    | _ => simp [Node.isDir, Node.isLink] at hn

/-- The rules that hold for every tree say the same of an entry under both spellings. -/
def Walk.SaidAlike (fs : FileSystem) (followLinks : Bool) (root root' : Path) : Prop :=
  ∀ v up, VisitedIgnoring fs followLinks root v up → ∀ name, isEntryName name = true → ∀ isDir,
    (IgnoreSettings.rules fs).verdict?
        (RuleFile.withoutHere (root.joinAll (v.names ++ [name])).bytes) isDir =
      (IgnoreSettings.rules fs).verdict?
        (RuleFile.withoutHere (root'.joinAll (v.names ++ [name])).bytes) isDir

namespace FileSystem.Spells

variable {ms : List Name}

theorem look_dir (h : fs.Spells root r) (hg : fs.tree.get? r = some (.dir mode)) :
    fs.look .follow root = .ok (r, .dir mode) := look_follow_eq_ok_iff.2 ⟨h.reaches, hg⟩

theorem readsAlike (h : fs.Spells root r) (h' : fs.Spells root' r)
    (hms : ∀ m ∈ ms, isEntryName m = true)
    (hlen : ∀ k, (IgnoreKind.file (root.joinAll ms) k).bytes.length < pathLimit)
    (hlen' : ∀ k, (IgnoreKind.file (root'.joinAll ms) k).bytes.length < pathLimit) :
    ReadsAlike fs (root.joinAll ms) (root'.joinAll ms) := by
  intro k content
  obtain ⟨hne, hend, hnul⟩ := k.path_bytes
  have hl := hlen k
  have hl' := hlen' k
  rw [k.file_eq_join] at hl hl' ⊢
  rw [k.file_eq_join]
  exact contents_of_sameSuccess (h.look_join h' hms hne hend hnul hl hl') content

section Alike

variable {v v' : Walk.Visit IgnoreState} {up up' : List (Walk.Visit IgnoreState)} {name : Name}

theorem skips_eq (h : fs.Spells root r) (h' : fs.Spells root' r)
    (hg : fs.tree.get? r = some (.dir mode)) (hp : RuleFile.Plain root)
    (hp' : RuleFile.Plain root') (hs : Walk.Short fs followLinks root)
    (hs' : Walk.Short fs followLinks root') (hsaid : Walk.SaidAlike fs followLinks root root')
    (hv : Walk.VisitedIgnoring fs followLinks root v up)
    (hv' : Walk.VisitedIgnoring fs followLinks root' v' up') (hnames : v'.names = v.names)
    (hname : isEntryName name = true) (isDir : Bool) :
    v'.known.skips (v'.child root' name) isDir = v.known.skips (v.child root name) isDir := by
  have hall : ∀ m ∈ v.names ++ [name], isEntryName m = true :=
    List.forall_mem_append.2 ⟨hv.isEntryName, by simpa using hname⟩
  have hread : ∀ ms, ms <+: v.names ++ [name] → ms ≠ v.names ++ [name] →
      ReadsAlike fs (root'.joinAll ms) (root.joinAll ms) := by
    intro ms hms hne
    have hpre := (List.prefix_concat_iff.1 hms).resolve_left hne
    obtain ⟨w, ws, hw, rfl⟩ := hv.exists_of_prefix hpre
    obtain ⟨w', ws', hw', hsame⟩ := hv'.exists_of_prefix (hnames ▸ hpre)
    have hlen' := hs'.files w' ws' hw'
    rw [hsame] at hlen'
    exact h'.readsAlike h hw.isEntryName hlen' (hs.files w ws hw)
  have hskip := IgnoreState.skips_along_atRoot isDir hp (h.look_dir hg) hall
  have hskip' := IgnoreState.skips_along_atRoot isDir hp' (h'.look_dir hg) hall
  have hknown : v.known = _ := Walk.Visited.known_eq hv
  have hknown' : v'.known = _ := Walk.Visited.known_eq hv'
  have hsame : isSkipped fs root' r isDir (v.names ++ [name]) =
      isSkipped fs root r isDir (v.names ++ [name]) :=
    isSkipped_of_readsAlike isDir hread (hsaid v up hv name hname isDir).symm
  rw [Walk.child_eq, Walk.child_eq, hknown, hknown', hnames]
  exact (hskip'.trans hsame).trans hskip.symm

theorem look_eq (h : fs.Spells root r) (h' : fs.Spells root' r)
    (hs : Walk.Short fs followLinks root) (hs' : Walk.Short fs followLinks root')
    (hv : Walk.VisitedIgnoring fs followLinks root v up)
    (hv' : Walk.VisitedIgnoring fs followLinks root' v' up') (hnames : v'.names = v.names)
    (hloc : v'.location = v.location) {n : Node}
    (hn : fs.tree.get? (name :: v.location) = some n) (hcase : n.isLink = true ∨ n.isDir = true) :
    SameSuccess (fs.look .follow (v.child root name)) (fs.look .follow (v'.child root' name)) := by
  obtain ⟨hne, -, -, hslash, hnul, -⟩ := isEntryName_iff.1 (FileTree.isEntryName_of_get? hn)
  have hend : name.getLast? ≠ some Path.slash := fun he => hslash (List.mem_of_getLast? he)
  have hlen : (v.child root name).bytes.length < pathLimit ∧
      (v'.child root' name).bytes.length < pathLimit := by
    cases n with
    | link target =>
      exact ⟨hs.links v up hv name target hn, hs'.links v' up' hv' name target (hloc ▸ hn)⟩
    | dir m =>
      exact ⟨length_lt_of_file (hs.met v up hv name _ hn (.inl rfl) .ignore),
        length_lt_of_file (hs'.met v' up' hv' name _ (hloc ▸ hn) (.inl rfl) .ignore)⟩
    | _ => simp [Node.isLink, Node.isDir] at hcase
  have hchild : v'.child root' name = (root'.joinAll v.names).join name := by
    rw [Walk.Visit.child, hnames]
  rw [hchild] at hlen ⊢
  exact h.look_join h' hv.isEntryName hne hend hnul hlen.1 hlen.2

theorem spelledAlike (h : fs.Spells root r) (h' : fs.Spells root' r)
    (hg : fs.tree.get? r = some (.dir mode)) (hp : RuleFile.Plain root)
    (hp' : RuleFile.Plain root') (hs : Walk.Short fs followLinks root)
    (hs' : Walk.Short fs followLinks root') (hsaid : Walk.SaidAlike fs followLinks root root') :
    Walk.SpelledAlike fs followLinks IgnoreState.guard (IgnoreState.atRoot fs root).1
      (IgnoreState.atRoot fs root').1 root root' where
  skips v up v' up' hv hv' hnames _ name hname isDir :=
    h.skips_eq h' hg hp hp' hs hs' hsaid hv hv' hnames hname isDir
  looks v up v' up' hv hv' hnames hloc name n hn hcase :=
    h.look_eq h' hs hs' hv hv' hnames hloc hn (hcase.imp_right And.left)
  ends v up v' up' hv hv' hnames hloc name n hn hk := by
    have hmet : ∀ k, (IgnoreKind.file (v.child root name) k).bytes.length < pathLimit ∧
        (IgnoreKind.file (v'.child root' name) k).bytes.length < pathLimit := by
      intro k
      rcases Walk.plainKind_eq_directory_iff.1 hk with hd | ⟨hlink, hfl, l, d, hl, hd, -⟩
      · exact ⟨hs.met v up hv name n hn (.inl hd) k,
          hs'.met v' up' hv' name n (hloc ▸ hn) (.inl hd) k⟩
      · have hl' := (h.look_eq h' hs hs' hv hv' hnames hloc hn (.inl hlink) (l, d)).1 hl
        exact ⟨hs.met v up hv name n hn (.inr ⟨hlink, hfl, l, d, hl, hd⟩) k,
          hs'.met v' up' hv' name n (hloc ▸ hn) (.inr ⟨hlink, hfl, l, d, hl', hd⟩) k⟩
    rw [Walk.child_eq, Walk.child_eq, hnames] at hmet ⊢
    have hnames : ∀ m ∈ v.names ++ [name], isEntryName m = true :=
      List.forall_mem_append.2 ⟨hv.isEntryName, by simpa using FileTree.isEntryName_of_get? hn⟩
    exact (h.readsAlike h' hnames
      (fun k => (hmet k).1) fun k => (hmet k).2).endless?_eq_none_iff

end Alike

end FileSystem.Spells

namespace Manifest

variable {job : Job}

theorem opening_spelled (h : fs.Spells root r) (h' : fs.Spells root' r)
    (hg : fs.tree.get? r = some (.dir mode)) (hstd : Walk.isStandardInput root = false)
    (hstd' : Walk.isStandardInput root' = false) (hs : Walk.Short fs followLinks root)
    (hs' : Walk.Short fs followLinks root') :
    (Walk.opening fs root = ([], some (IgnoreState.atRoot fs root).1) ∧
      Walk.opening fs root' = ([], some (IgnoreState.atRoot fs root').1)) ∨
    (Walk.opening fs root).1 ≠ [] ∧ (Walk.opening fs root').1 ≠ [] := by
  have hl := h.look_dir hg
  have hl' := h'.look_dir hg
  obtain ⟨v, hv, hnames, -⟩ : ∃ v, Walk.VisitedIgnoring fs followLinks root v [] ∧
      v.names = [] ∧ v.location = r := Walk.exists_visited_root hl rfl
  obtain ⟨v', hv', hnames', -⟩ : ∃ v, Walk.VisitedIgnoring fs followLinks root' v [] ∧
      v.names = [] ∧ v.location = r := Walk.exists_visited_root hl' rfl
  have haround : IgnoreState.endlessAround? fs root = IgnoreState.endlessAround? fs root' := by
    simp only [IgnoreState.endlessAround?, IgnoreState.surroundings_of_dir hl,
      IgnoreState.surroundings_of_dir hl']
  have hfaults : (IgnoreState.atRoot fs root).2 = (IgnoreState.atRoot fs root').2 := by
    simp only [IgnoreState.atRoot, IgnoreState.surroundings_of_dir hl,
      IgnoreState.surroundings_of_dir hl']
  have hown : IgnoreState.endlessOwn? fs root = none ↔ IgnoreState.endlessOwn? fs root' = none := by
    have hfiles := hs.files _ _ hv
    have hfiles' := hs'.files _ _ hv'
    rw [hnames] at hfiles
    rw [hnames'] at hfiles'
    simp only [IgnoreState.endlessOwn?, hl, hl']
    exact (h.readsAlike h' (by simp) hfiles hfiles').endless?_eq_none_iff
  simp only [Walk.opening, hstd, hstd', ← haround, ← hfaults]
  cases IgnoreSettings.excludesFile fs fs.ignoring.configs with
  | error c => exact .inr ⟨List.cons_ne_nil _ _, List.cons_ne_nil _ _⟩
  | ok file? =>
    cases IgnoreState.endlessAround? fs root with
    | some file => exact .inr ⟨List.cons_ne_nil _ _, List.cons_ne_nil _ _⟩
    | none =>
      cases ho : IgnoreState.endlessOwn? fs root with
      | some file =>
        obtain ⟨file', ho'⟩ := Option.ne_none_iff_exists'.1 fun hn => by
          cases ho.symm.trans (hown.2 hn)
        exact .inr (by simp [ho'])
      | none =>
        by_cases hnone : (IgnoreState.atRoot fs root).2 = []
        · exact .inl (by simp [hown.1 ho, hnone])
        · exact .inr (by simp [hown.1 ho, hnone])

/-- A listing that heeds ignore files is the same under every spelling of the root, or fails under
every one. The spellings are those that lead to the root over no link and do not begin with a dot
and a slash twice; of the present directory, only the dot, with a slash or without. The standard
input is no directory, no path that is looked up may be too long, and the rules that hold for every
tree, to which the spelling is all there is, have to say the same. -/
theorem collect_spelled (hig : job.respectIgnore = true) (h : fs.Spells root r)
    (h' : fs.Spells root' r) (hg : fs.tree.get? r = some (.dir mode)) (hp : RuleFile.Plain root)
    (hp' : RuleFile.Plain root') (hstd : Walk.isStandardInput root = false)
    (hstd' : Walk.isStandardInput root' = false) (hs : Walk.Short fs job.followLinks root)
    (hs' : Walk.Short fs job.followLinks root')
    (hsaid : Walk.SaidAlike fs job.followLinks root root') :
    SameSuccess (collect fs { job with root := root }).result
      (collect fs { job with root := root' }).result := by
  have hl := h.look_dir hg
  have hl' := h'.look_dir hg
  have hfound := (h.spelledAlike h' hg hp hp' hs hs' hsaid).found hl hl' rfl
  rcases opening_spelled h h' hg hstd hstd' hs hs' with ⟨hop, hop'⟩ | ⟨hop, hop'⟩
  · have hcases := @collect_ignoring_of_begun fs { job with root := root } _ _ _ hig hop hl
    have hcases' := @collect_ignoring_of_begun fs { job with root := root' } _ _ _ hig hop' hl'
    simp only at hcases hcases'
    rcases hcases with ⟨names, hf, hc⟩ | ⟨w, hw, hc⟩
    · rw [hf] at hfound
      have hf' := hfound.eq_map_ok
      rcases hcases' with ⟨names', hn', hc'⟩ | ⟨w', hw', -⟩
      · obtain rfl : names = names' :=
          List.map_injective_iff.2 (fun _ _ => Except.ok.inj) (hf'.symm.trans hn')
        rw [hc, hc']
        exact .of_oks _
      · rw [hf'] at hw'
        simp at hw'
    · rcases hcases' with ⟨names', hn', -⟩ | ⟨w', -, hc'⟩
      · rw [hn'] at hfound
        rw [hfound.symm.eq_map_ok] at hw
        simp at hw
      · rw [hc, hc']
        exact .of_errors _ _
  · obtain ⟨f, hf⟩ := @exists_error_of_opening fs { job with root := root } hig hop
    obtain ⟨f', hf'⟩ := @exists_error_of_opening fs { job with root := root' } hig hop'
    rw [hf, hf']
    exact .of_errors _ _

/-- Pictures in a directory and the one below it. Two of them are excluded by their places: one by a
rule beside it, the other by a rule at the top. -/
def placedTree : FileTree :=
  let d := Utf8.encode "d"
  let a := Utf8.encode "a"
  let rules := IgnoreKind.ignore.entry
  ((((((FileTree.empty.put [d] (.dir 0o755)).put [a, d] (.dir 0o755)).put
    [Utf8.encode "x.png", a, d] (.file 0o644 [])).put [Utf8.encode "y.png", d]
    (.file 0o644 [])).put [Utf8.encode "z.png", d] (.file 0o644 [])).put [rules, a, d]
    (.file 0o644 (Utf8.encode "/x.png\n"))).put [rules] (.file 0o644 (Utf8.encode "/d/y.png\n"))

theorem short_placedTree {root : Path} (hlen : root.bytes.length < 1000)
    (hl : ({ tree := placedTree } : FileSystem).look .follow root =
      .ok ([Utf8.encode "d"], .dir 0o755)) : Walk.Short { tree := placedTree } true root := by
  have hlinks : ∀ e ∈ placedTree.nodes, e.2.isLink = false := by decide +kernel
  have hdirs : ∀ e ∈ placedTree.nodes, e.2.isDir = true → e.1.length ≤ 2 := by decide +kernel
  have hno : ∀ l target, placedTree.get? l ≠ some (.link target) := by
    intro l target hg
    cases l with
    | nil => simp at hg
    | cons n l => cases hlinks _ (FileTree.get?_cons_eq_some_iff.1 hg)
  refine Walk.short_of_no_links hno hl fun ns hns k => ?_
  have hfile : k.path.bytes.length ≤ 17 := by cases k <;> decide +kernel
  have hjoin := Path.length_join_le (p := root.joinAll ns) (n := k.path.bytes)
  rw [k.file_eq_join]
  unfold pathLimit
  cases ns with
  | nil =>
    rw [Path.joinAll_nil] at hjoin ⊢
    omega
  | cons n ns =>
    have hname := (isEntryName_iff.1 (FileTree.isEntryName_of_isDir hns n (by simp))).2.2.2.2.2
    have hns₀ : ns = [] := by
      rcases FileTree.exists_dir_of_isDir hns with hnil | ⟨mode, hm⟩
      · simp at hnil
      · have hle := hdirs _ hm rfl
        simp only [List.length_append, List.length_reverse, List.length_cons, List.length_nil] at hle
        exact List.length_eq_zero_iff.1 (by omega)
    subst hns₀
    have hone := Path.length_join_le (p := root) (n := n)
    rw [Path.joinAll_cons, Path.joinAll_nil] at hjoin ⊢
    omega

theorem collect_spelled_placed :
    let fs : FileSystem := { tree := placedTree }
    let job : Job := { respectIgnore := true, followLinks := true }
    let root := Path.ofString "/d"
    let root' := Path.ofString "./d//./"
    let r : Location := [Utf8.encode "d"]
    fs.Spells root r ∧ fs.Spells root' r ∧ fs.tree.get? r = some (.dir 0o755) ∧
    RuleFile.Plain root ∧ RuleFile.Plain root' ∧ Walk.isStandardInput root = false ∧
    Walk.isStandardInput root' = false ∧ Walk.Short fs true root ∧ Walk.Short fs true root' ∧
    Walk.SaidAlike fs true root root' ∧
    (collect fs { job with root := root }).result = .ok ["z.png"] ∧
    (collect fs { job with root := root' }).result = .ok ["z.png"] := by
  intro fs job root root' r
  have hg : fs.tree.get? r = some (.dir 0o755) := by decide +kernel
  have hsteps : root.steps = [Utf8.encode "d"] := by decide +kernel
  have hsteps' : root'.steps = [[Path.dot], Utf8.encode "d", [Path.dot], []] := by decide +kernel
  have hd : fs.tree.isDir r = true := FileTree.isDir_iff.2 ⟨_, hg⟩
  have hspells : fs.Spells root r :=
    ⟨by decide +kernel, by decide +kernel, by decide +kernel, hsteps ▸ .of_get? hg rfl⟩
  have hspells' : fs.Spells root' r := by
    refine ⟨by decide +kernel, by decide +kernel, by decide +kernel, ?_⟩
    rw [hsteps']
    exact .stay rfl (.inr rfl) (.entry hg rfl (.stay hd (.inr rfl) (.stay hd (.inl rfl) .done)))
  have hplain : RuleFile.Plain root :=
    .inr ⟨by decide +kernel, by decide +kernel, by decide +kernel⟩
  have hplain' : RuleFile.Plain root' :=
    .inr ⟨by decide +kernel, by decide +kernel, by decide +kernel⟩
  have hstd : Walk.isStandardInput root = false := by decide +kernel
  have hstd' : Walk.isStandardInput root' = false := by decide +kernel
  have hshort : Walk.Short fs true root := short_placedTree (by decide +kernel) (hspells.look_dir hg)
  have hshort' : Walk.Short fs true root' :=
    short_placedTree (by decide +kernel) (hspells'.look_dir hg)
  have hc : (collect fs { job with root := root }).result = .ok ["z.png"] := by decide +kernel
  have hsaid : Walk.SaidAlike fs true root root' := fun _ _ _ _ _ _ => rfl
  have hsame := @collect_spelled fs root root' r 0o755 job rfl hspells hspells' hg hplain hplain'
    hstd hstd' hshort hshort' hsaid
  exact ⟨hspells, hspells', hg, hplain, hplain', hstd, hstd', hshort, hshort', hsaid, hc,
    (hsame _).1 hc⟩

/-- A picture in a directory, and a file of rules that name it as it is seen from the top. -/
def everywhereTree : FileTree :=
  let d := Utf8.encode "d"
  ((FileTree.empty.put [d] (.dir 0o755)).put [Utf8.encode "x.png", d] (.file 0o644 [])).put
    [Utf8.encode "rules"] (.file 0o644 (Utf8.encode "d/x.png\n"))

/-- Spellings that begin otherwise put some rules out of force, a name can stand for something else,
rules that hold for every tree see the spelling itself, and a path can be too long. -/
theorem collect_differs_by_spelling :
    let list := fun (fs : FileSystem) (root : Path) =>
      (collect fs { root := root, respectIgnore := true }).result
    let top : FileSystem := { tree := placedTree }
    let inside : FileSystem := { tree := placedTree, cwd := [Utf8.encode "d"] }
    let everywhere : FileSystem :=
      { tree := everywhereTree, ignoring := { standard? := some (.ofString "/rules") } }
    list { tree := dashTree } (.ofString "./-") = .ok ["x.png"] ∧
    list { tree := dashTree } (.ofString "-") = .ok [] ∧
    list top (.ofString "d") = .ok ["z.png"] ∧
    list top (.ofString "././d") = .ok ["a/x.png", "z.png"] ∧
    list inside (.ofString ".") = .ok ["z.png"] ∧
    list inside (.ofString "./.") = .ok ["a/x.png", "y.png", "z.png"] ∧
    list inside (.ofString ".//") = .ok ["y.png", "z.png"] ∧
    list everywhere (.ofString "d") = .ok [] ∧
    list everywhere (.ofString "d/.") = .ok ["x.png"] ∧
    ∀ es, list top ⟨Utf8.encode "d" ++ List.replicate 4095 Path.slash⟩ ≠ .ok es := by
  intro list top inside everywhere
  refine ⟨by decide +kernel, by decide +kernel, by decide +kernel, by decide +kernel,
    by decide +kernel, by decide +kernel, by decide +kernel, by decide +kernel,
    by decide +kernel, fun es hes => ?_⟩
  obtain ⟨r, mode, hl⟩ := exists_look_of_collect hes
  have hlen := (FileSystem.look_follow_eq_ok_iff.1 hl).1.length_lt
  exact absurd hlen (by decide +kernel)

end Manifest

end ResourceManifest
