import ResourceManifest.Proofs.FileSystem.Outside
import ResourceManifest.Proofs.Manifest.Seen

set_option autoImplicit false

namespace ResourceManifest

variable {fs fs' : FileSystem} {followLinks : Bool} {root : Path} {l : Location}

namespace Walk

/-- The paths that a walk goes by where ignore files are heeded: the settings and the ignore file
that they name, the root, the ignore files around it, those of the directories that it visits or
meets, and the links it meets, without what is at `l` and links that are skipped and not
followed. -/
inductive GoesBy (fs : FileSystem) (followLinks : Bool) (root : Path) (l : Location) :
    Path → Prop where
  | config {c : Path} : c ∈ fs.ignoring.configs → GoesBy fs followLinks root l c
  | named {file : Path} : IgnoreSettings.NamesFile fs file → GoesBy fs followLinks root l file
  | root : GoesBy fs followLinks root l root
  | around {r m : Location} {mode : Nat} (k : IgnoreKind) :
      fs.look .follow root = .ok (r, .dir mode) → m ∈ Location.around r →
      GoesBy fs followLinks root l (k.file (Location.path m))
  | rules {v : Visit IgnoreState} {up : List (Visit IgnoreState)} (k : IgnoreKind) :
      VisitedIgnoring fs followLinks root v up →
      GoesBy fs followLinks root l (k.file (root.joinAll v.names))
  | met {v : Visit IgnoreState} {up : List (Visit IgnoreState)} {name : Name} {n : Node}
      (k : IgnoreKind) : VisitedIgnoring fs followLinks root v up →
      fs.tree.get? (name :: v.location) = some n → name :: v.location ≠ l →
      plainKind fs followLinks ((v :: up).map (Visit.ancestor root)) (v.child root name) n =
        .directory →
      GoesBy fs followLinks root l (k.file (v.child root name))
  | link {v : Visit IgnoreState} {up : List (Visit IgnoreState)} {name : Name} {target : Path} :
      VisitedIgnoring fs followLinks root v up →
      fs.tree.get? (name :: v.location) = some (.link target) → name :: v.location ≠ l →
      (followLinks = true ∨ ∃ isDir, v.known.skips (v.child root name) isDir = false) →
      GoesBy fs followLinks root l (v.child root name)

/-- Two file systems that differ at most at an entry, and below it, that the walk skips whatever it
is, and by which no path leads that the walk goes by. -/
structure DifferSkipped (fs fs' : FileSystem) (followLinks : Bool) (root : Path) (l : Location) :
    Prop where
  same : SameOutside fs fs' l
  skipped : ∀ v up name, VisitedIgnoring fs followLinks root v up → name :: v.location = l →
    ∀ isDir, v.known.skips (v.child root name) isDir = true
  unbroken : ∀ v up name, VisitedIgnoring fs followLinks root v up → name :: v.location = l →
    Unbroken fs followLinks IgnoreState.guard root v up name ∧
      Unbroken fs' followLinks IgnoreState.guard root v up name
  bypassed : ∀ p, GoesBy fs followLinks root l p → fs.Bypasses l p ∧ fs'.Bypasses l p

namespace DifferSkipped

variable {p : Path} {v : Visit IgnoreState} {up : List (Visit IgnoreState)} {name : Name} {n : Node}

theorem look (h : DifferSkipped fs fs' followLinks root l) (hp : GoesBy fs followLinks root l p) :
    SameSuccess (fs.look .follow p) (fs'.look .follow p) :=
  h.same.look (h.bypassed p hp).1 (h.bypassed p hp).2

theorem contents (h : DifferSkipped fs fs' followLinks root l)
    (hp : GoesBy fs followLinks root l p) : SameSuccess (fs.contents p) (fs'.contents p) :=
  FileSystem.contents_of_sameSuccess (h.look hp)

theorem not_suffix_of_look (h : DifferSkipped fs fs' followLinks root l)
    (hp : GoesBy fs followLinks root l p) {m : Location} (hl : fs.look .follow p = .ok (m, n)) :
    ¬ l <:+ m ∧ fs'.Reaches p m :=
  ⟨(h.bypassed p hp).1.not_suffix h.same.below hl,
    (FileSystem.look_follow_eq_ok_iff.1 ((h.look hp _).1 hl)).1⟩

/-- The walk never enters what it skips, and in the other file system the same paths lead to the
directories that it visits. -/
theorem outside (h : DifferSkipped fs fs' followLinks root l)
    (hv : VisitedIgnoring fs followLinks root v up) :
    ¬ l <:+ v.location ∧ fs'.Reaches (root.joinAll v.names) v.location := by
  induction hv with
  | root hl _ _ => exact h.not_suffix_of_look .root hl
  | @entry v up name n d m hv hg hk hs hl ih =>
    rw [← child_eq]
    cases hn : n.isLink with
    | true =>
      cases n with
      | link target =>
        refine h.not_suffix_of_look (.link hv hg ?_ (.inr ⟨true, hs⟩)) hl
        intro hname
        have hskip := h.skipped v up name hv hname true
        cases hskip.symm.trans hs
      | _ => cases hn
    | false =>
      obtain rfl := (isDir_of_kind hv.reaches.1 hg hk hl).2 hn
      have hout : ¬ l <:+ name :: v.location := by
        intro hsuffix
        rcases List.suffix_cons_iff.1 hsuffix with hname | hsuffix
        · have hskip := h.skipped v up name hv hname.symm true
          cases hskip.symm.trans hs
        · exact ih.1 hsuffix
      have hlen := (FileSystem.look_follow_eq_ok_iff.1 hl).1.length_lt
      exact ⟨hout, ih.2.join ((h.same.others _ hout).trans hg) hn hlen⟩

theorem seenAlike (h : DifferSkipped fs fs' followLinks root l) :
    SeenAlike fs fs' followLinks IgnoreState.guard (IgnoreState.atRoot fs root).1 root where
  known v up hv k :=
    IgnoreState.enter_congr h.same.ignoring (fun kind => h.contents (.rules kind hv)) k
  entries v up hv name := by
    by_cases hname : name :: v.location = l
    · have hskip := h.skipped v up name hv hname
      have hunbroken := h.unbroken v up name hv hname
      exact .inl ⟨mute_of_skips hskip hunbroken.1, mute_of_skips hskip hunbroken.2⟩
    · obtain ⟨hout, hr'⟩ := h.outside hv
      have hout' : ¬ l <:+ name :: v.location := by
        intro hsuffix
        rcases List.suffix_cons_iff.1 hsuffix with hl | hl
        · exact hname hl.symm
        · exact hout hl
      have hsame := h.same.others _ hout'
      cases hg : fs.tree.get? (name :: v.location) with
      | none => exact .inl ⟨mute_of_none hg, mute_of_none (hsame.trans hg)⟩
      | some n =>
        -- What is read at a directory that the walk meets is read on its ways.
        have hends : ∀ n, fs.tree.get? (name :: v.location) = some n →
            plainKind fs followLinks ((v :: up).map (Visit.ancestor root)) (v.child root name) n =
              .directory →
            (IgnoreState.guard.endless? fs (v.child root name) = none ↔
              IgnoreState.guard.endless? fs' (v.child root name) = none) := by
          intro n hn hk
          have he := IgnoreKind.endless?_congr fun kind => h.contents (.met kind hv hn hname hk)
          exact iff_of_eq (congrArg (· = none) he)
        cases hn : n.isLink with
        | false =>
          exact .inr ⟨by rw [hsame], h.same.looksAlike_join hv.reaches.1 hr' hout' hg hn, hends⟩
        | true =>
          cases n with
          | link target =>
            by_cases hgoes : followLinks = true ∨
                ∃ isDir, v.known.skips (v.child root name) isDir = false
            · exact .inr ⟨by rw [hsame],
                FileSystem.looksAlike_of_sameSuccess (h.look (.link hv hg hname hgoes)), hends⟩
            · -- Such a link is skipped, and not followed before.
              obtain ⟨hfl, hskip⟩ := not_or.1 hgoes
              obtain rfl : followLinks = false := by simpa using hfl
              have hskip' : ∀ isDir, v.known.skips (v.child root name) isDir = true := by
                simpa using hskip
              exact .inl ⟨mute_of_skips hskip' (unbroken_of_not_followed hg),
                mute_of_skips hskip' (unbroken_of_not_followed (hsame.trans hg))⟩
          | _ => cases hn

theorem opensAlike (h : DifferSkipped fs fs' followLinks root l) : OpensAlike fs fs' root where
  settings := h.same.ignoring
  cwd := h.same.cwd
  look := h.look .root
  configs _ hc := h.contents (.config hc)
  named _ hf := h.contents (.named hf)
  around _ _ hl _ hm k := h.contents (.around k hl hm)
  own _ _ hl k := by
    obtain ⟨v, hv, hnames, -⟩ : ∃ v, VisitedIgnoring fs followLinks root v [] ∧ v.names = [] ∧
      v.location = _ := exists_visited_root hl rfl
    have hk := h.contents (.rules k hv)
    rwa [hnames, Path.joinAll_nil] at hk

end DifferSkipped

/-- Where the root holds no directory that the walk enters, an entry of the root is all that has to
be skipped. -/
theorem skips_of_leaf {r : Location} {d : Node} {name : Name}
    (hl : fs.look .follow root = .ok (r, d))
    (hleaf : ∀ n ∈ fs.tree.names r, ∀ d ∈ fs.tree.get? (n :: r),
      kind fs IgnoreState.guard followLinks [⟨root, r⟩] (root.join n) d = .directory →
      (IgnoreState.enter fs (IgnoreState.atRoot fs root).1 root).skips (root.join n) true = true)
    (hskip : ∀ isDir, (IgnoreState.enter fs (IgnoreState.atRoot fs root).1 root).skips
      (root.join name) isDir = true) {v : Visit IgnoreState} {up : List (Visit IgnoreState)}
    {n : Name} (hv : VisitedIgnoring fs followLinks root v up)
    (hn : n :: v.location = name :: r) (isDir : Bool) :
    v.known.skips (v.child root n) isDir = true := by
  obtain ⟨hnames, -, hknown, -⟩ := hv.eq_root hl hleaf
  obtain ⟨rfl, -⟩ := List.cons.inj hn
  rw [Visit.child, hnames, hknown]
  exact hskip isDir

end Walk

namespace Manifest

variable {job : Job}

/-- What a listing that heeds ignore files skips has no influence on it: the entries are the same,
or it fails in both. -/
theorem collect_of_skipped (hig : job.respectIgnore = true)
    (h : Walk.DifferSkipped fs fs' job.followLinks job.root l) :
    SameSuccess (collect fs job).result (collect fs' job).result := by
  have hop := h.opensAlike.opening
  refine collect_ignoring_seen hig (FileSystem.looksAlike_of_sameSuccess (h.look .root))
    (by rw [hop]) (by rw [hop]) fun s hs => ?_
  obtain ⟨-, -, rfl⟩ := Walk.opening_of_some hs
  exact h.seenAlike

def hiddenTree : FileTree :=
  ((FileTree.empty.put [[0x2E, 0x68]] (.dir 0o755)).put
    [[0x78, 0x2E, 0x70, 0x6E, 0x67], [0x2E, 0x68]] (.file 0o644 [])).put
    [[0x61, 0x2E, 0x70, 0x6E, 0x67]] (.file 0o644 [])

def hiddenLinkTree : FileTree :=
  (hiddenTree.erase [[0x2E, 0x68]]).put [[0x2E, 0x68]] (.link (.ofString "a.png"))

theorem bypasses_of_look_eq {p : Path}
    (h : (fs.erase l).look .follow p = fs.look .follow p) : fs.Bypasses l p :=
  fun _ hx => h.trans hx

theorem sameOutside_hiddenTree :
    SameOutside { tree := hiddenTree } { tree := hiddenLinkTree } [[0x2E, 0x68]] where
  below := by simp
  others m hm := by
    have ht : (hiddenTree.erase [[0x2E, 0x68]]).Takes [[0x2E, 0x68]] (.link (.ofString "a.png")) :=
      ⟨by decide, by decide +kernel, by decide +kernel⟩
    have hne : m ≠ [[0x2E, 0x68]] := by
      rintro rfl
      exact hm (List.suffix_refl _)
    refine (FileTree.get?_put_of_takes ht m).trans ((if_neg hne).trans ?_)
    exact @FileSystem.get?_erase_of_not_suffix { tree := hiddenTree } _ m hm
  cwd := rfl
  ignoring := rfl

theorem differSkipped_hiddenTree :
    Walk.DifferSkipped { tree := hiddenTree } { tree := hiddenLinkTree } true ⟨[Path.dot]⟩
      [[0x2E, 0x68]] := by
  have hl : ({ tree := hiddenTree } : FileSystem).look .follow ⟨[Path.dot]⟩ =
      .ok ([], .dir 0o755) := by decide +kernel
  have hroot : ∀ v up, Walk.VisitedIgnoring { tree := hiddenTree } true ⟨[Path.dot]⟩ v up →
      v.names = [] ∧ v.location = [] ∧ up = [] := by
    intro v up hv
    obtain ⟨hnames, hloc, -, hup⟩ := hv.eq_root hl (by decide +kernel)
    exact ⟨hnames, hloc, hup⟩
  refine ⟨sameOutside_hiddenTree, fun v up name hv hname => ?_, fun v up name hv hname => ?_,
    fun p hp => ?_⟩
  · exact Walk.skips_of_leaf hl (by decide +kernel) (by decide +kernel) hv hname
  · obtain ⟨hnames, hloc, rfl⟩ := hroot v up hv
    rw [hloc] at hname
    obtain ⟨rfl, -⟩ := List.cons.inj hname
    simp only [Walk.Unbroken, Walk.Visit.child, Walk.Visit.ancestor, hnames, hloc, List.map_cons,
      List.map_nil, Path.joinAll_nil]
    have hdir : hiddenTree.get? [[0x2E, 0x68]] = some (.dir 0o755) := rfl
    have hlink : hiddenLinkTree.get? [[0x2E, 0x68]] = some (.link (.ofString "a.png")) := rfl
    have hregular : Walk.kind { tree := hiddenLinkTree } IgnoreState.guard true
        [⟨⟨[Path.dot]⟩, []⟩] (.ofString "./.h") (.link (.ofString "a.png")) = .regular := by
      decide +kernel
    have hplain : Walk.kind { tree := hiddenTree } IgnoreState.guard true [⟨⟨[Path.dot]⟩, []⟩]
        (.ofString "./.h") (.dir 0o755) = .directory := by decide +kernel
    refine ⟨fun n hn f => ?_, fun n hn f => ?_⟩
    · cases hdir.symm.trans hn
      exact fun hf => Kind.noConfusion (hplain.symm.trans hf)
    · cases hlink.symm.trans hn
      exact fun hf => Kind.noConfusion (hregular.symm.trans hf)
  · have hnodes : ∀ n ∈ hiddenTree.names [], ∀ d ∈ hiddenTree.get? [n],
        d.isLink = false ∧ (d.isDir = true → n = [0x2E, 0x68]) := by decide +kernel
    have hentry : ∀ v up name n, Walk.VisitedIgnoring { tree := hiddenTree } true ⟨[Path.dot]⟩ v up →
        hiddenTree.get? (name :: v.location) = some n → name :: v.location ≠ [[0x2E, 0x68]] →
        n.isLink = false ∧ n.isDir = false := by
      intro v up name n hv hg hne
      obtain ⟨-, hloc, -⟩ := hroot v up hv
      rw [hloc] at hg hne
      obtain ⟨hlink, hdir⟩ := hnodes name (FileTree.mem_names_iff.2 ⟨_, hg⟩) n hg
      exact ⟨hlink, Bool.eq_false_iff.2 fun hd => hne (congrArg (· :: []) (hdir hd))⟩
    cases hp with
    | config hc => cases hc
    | named hf => cases hf
    | root =>
      exact ⟨bypasses_of_look_eq (by decide +kernel), bypasses_of_look_eq (by decide +kernel)⟩
    | around k hr hm =>
      cases hl.symm.trans hr
      cases hm
    | rules k hv =>
      obtain ⟨hnames, -, -⟩ := hroot _ _ hv
      rw [hnames, Path.joinAll_nil]
      cases k <;> exact ⟨bypasses_of_look_eq (by decide +kernel),
        bypasses_of_look_eq (by decide +kernel)⟩
    | @met v up name n k hv hg hne hk =>
      obtain ⟨hlink, hdir⟩ := hentry v up name n hv hg hne
      rcases Walk.plainKind_eq_directory_iff.1 hk with hd | ⟨hl', -⟩
      · cases hdir.symm.trans hd
      · cases hlink.symm.trans hl'
    | @link v up name target hv hg hne _ => cases (hentry v up name _ hv hg hne).1

theorem collect_of_skipped_hidden :
    let fs : FileSystem := { tree := hiddenTree }
    let fs' : FileSystem := { tree := hiddenLinkTree }
    let job : Job := { root := ⟨[Path.dot]⟩, respectIgnore := true, followLinks := true }
    job.respectIgnore = true ∧ Walk.DifferSkipped fs fs' job.followLinks job.root [[0x2E, 0x68]] ∧
    (collect fs job).result = .ok ["a.png"] ∧ (collect fs' job).result = .ok ["a.png"] := by
  intro fs fs' job
  have h : Walk.DifferSkipped fs fs' job.followLinks job.root [[0x2E, 0x68]] :=
    differSkipped_hiddenTree
  have hc : (collect fs job).result = .ok ["a.png"] := by decide +kernel
  exact ⟨rfl, h, hc, (collect_of_skipped rfl h _).1 hc⟩

def revealedTree : FileTree :=
  ((FileTree.empty.put [[0x2E, 0x68]] (.dir 0o755)).put
    [[0x78, 0x2E, 0x70, 0x6E, 0x67], [0x2E, 0x68]] (.file 0o644 [])).put
    [[0x61, 0x2E, 0x70, 0x6E, 0x67]] (.link (.ofString ".h/x.png"))

/-- Without the hidden directory the link, which is not skipped, is no longer listed. -/
theorem collect_skipped_revealed :
    let fs : FileSystem := { tree := revealedTree }
    let l : Location := [[0x2E, 0x68]]
    let job : Job := { root := ⟨[Path.dot]⟩, respectIgnore := true }
    SameOutside fs (fs.erase l) l ∧
    (∀ v up name, Walk.VisitedIgnoring fs job.followLinks job.root v up → name :: v.location = l →
      ∀ isDir, v.known.skips (v.child job.root name) isDir = true) ∧
    (collect fs job).result = .ok ["a.png"] ∧ (collect (fs.erase l) job).result = .ok [] := by
  intro fs l job
  have hl : fs.look .follow job.root = .ok ([], .dir 0o755) := by decide +kernel
  refine ⟨⟨by simp [l], fun m hm => FileSystem.get?_erase_of_not_suffix hm, rfl, rfl⟩,
    fun v up name hv hname isDir => ?_, by decide +kernel, by decide +kernel⟩
  exact Walk.skips_of_leaf hl (by decide +kernel) (by decide +kernel) hv hname isDir

end Manifest

end ResourceManifest
