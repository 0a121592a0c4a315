import ResourceManifest.Proofs.FileSystem.Entry

/-!
Files that are written. To overwrite one changes nothing but the file that the path leads to; to
replace one changes nothing but the entry that the path names, and nothing at all where it fails.
The new file beside it has a name of its own and leaves no trace.
-/

set_option autoImplicit false

namespace ResourceManifest

namespace Leads

variable {t : FileTree} {k : Nat} {here l : Location}

theorem dots (hl : t.isDir l = true) {ds : List Bytes} (hd : ∀ s ∈ ds, s = [Path.dot]) :
    Leads t 0 l ds l := by
  induction ds with
  | nil => exact .done
  | cons s ds ih =>
    have hds := ih fun u hu => hd u (List.mem_cons_of_mem s hu)
    exact .stay hl (.inr (hd s List.mem_cons_self)) hds

theorem change_dots {xs ds es : List Bytes} (hd : ∀ s ∈ ds, s = [Path.dot])
    (he : ∀ s ∈ es, s = [Path.dot]) (h : Leads t k here (xs ++ ds ++ [[]]) l) :
    Leads t k here (xs ++ es ++ [[]]) l := by
  have hl := h.isDir_of_slash_end
  obtain ⟨m, i, j, hi, hj, hk⟩ := h.of_slash_end.split rfl
  obtain ⟨rfl, rfl⟩ : l = m ∧ j = 0 := by
    cases ds with
    | nil =>
      cases hj
      exact ⟨rfl, rfl⟩
    | cons s ds => exact hj.deterministic (dots hj.isDir hd)
  rw [hk]
  exact (hi.append (dots hl he)).slash_end hl

theorem of_isDir (hl : t.isDir l = true) : Leads t 0 [] l.reverse l := by
  induction l with
  | nil => exact .done
  | cons n l ih =>
    obtain ⟨mode, hm⟩ := FileTree.isDir_iff.1 hl
    rw [List.reverse_cons]
    exact (ih (FileTree.isDir_tail hl)).append (of_get? hm rfl)

theorem isDir_here {as : List Bytes} (h : Leads t k here (as ++ [[]]) l) : t.isDir here = true := by
  cases as with
  | nil => exact h.isDir
  | cons a as => exact h.isDir

end Leads

theorem Naming.pick_ne_nil (naming : Naming) (taken : List Name) : naming.pick taken ≠ [] := by
  intro h
  have hdots := (naming.plain taken).2.2
  rw [h] at hdots
  cases hdots

namespace FileSystem

variable {fs fs₁ : FileSystem} {p dir : Path} {before : List Bytes} {last : Name}
  {parent l : Location} {content : Bytes}

theorem fromTop_bytes_ne_nil (fs : FileSystem) (hd : dir.bytes ≠ []) :
    (fs.fromTop dir).bytes ≠ [] := by
  unfold fromTop
  split
  · exact hd
  · exact Path.join_bytes_ne_nil (Location.path_bytes_ne_nil fs.cwd)

theorem start_fromTop (fs : FileSystem) (dir : Path) : fs.start (fs.fromTop dir) = [] := by
  have ha : (fs.fromTop dir).isAbsolute = true := by
    unfold fromTop
    split
    · assumption
    · rw [Path.isAbsolute_join _ (Location.path_bytes_ne_nil fs.cwd), Location.isAbsolute_path]
  rw [start, ha]
  rfl

theorem nul_notMem_fromTop (hd : fs.tree.isDir (fs.start dir) = true) (h₀ : 0 ∉ dir.bytes) :
    0 ∉ (fs.fromTop dir).bytes := by
  unfold fromTop
  unfold start at hd
  split at hd
  · next ha => rwa [if_pos ha]
  · next ha =>
    rw [if_neg ha]
    exact Path.nul_notMem_join (Location.nul_notMem_path (FileTree.isEntryName_of_isDir hd)) h₀

theorem leads_fromTop {k : Nat} (h : Leads fs.tree k (fs.start dir) (dir.names ++ [[]]) l) :
    Leads fs.tree k [] ((fs.fromTop dir).names ++ [[]]) l := by
  unfold start at h
  unfold fromTop
  split at h
  · next ha => rwa [if_pos ha]
  · next ha =>
    have hcwd := h.isDir_here
    have hnames := Location.names_path (FileTree.isEntryName_of_isDir hcwd)
    have hl := (Leads.of_isDir hcwd).append h
    rw [if_neg ha, Path.names_join_path (Location.path_bytes_ne_nil fs.cwd), hnames,
      List.append_assoc, ← Nat.zero_add k]
    exact hl

theorem list_of_reaches (h : fs.Reaches p l) (hl : fs.tree.isDir l = true) :
    fs.list p = .ok (fs.tree.names l) := by
  obtain ⟨mode, hm⟩ := FileTree.isDir_iff.1 hl
  have hlook := look_follow_eq_ok_iff.2 ⟨h, hm⟩
  simp [list, hlook, bind, Except.bind, Node.isDir]

theorem exists_temporaryPath (fs : FileSystem) (dir : Path) :
    ∃ taken, fs.temporaryPath dir = (fs.fromTop dir).join (fs.naming.pick taken) ∧
      ∀ names, fs.list (fs.fromTop dir) = .ok names → names = taken := by
  refine ⟨_, rfl, fun names h => ?_⟩
  rw [h]

/-- The path of a new file in a directory is one that the system takes. -/
def HasRoom (fs : FileSystem) (dir : Path) : Prop :=
  (fs.temporaryPath dir).bytes.length < pathLimit ∧
    ∀ n ∈ (fs.temporaryPath dir).names.getLast?, n.length ≤ nameLimit

instance (fs : FileSystem) (dir : Path) : Decidable (fs.HasRoom dir) :=
  inferInstanceAs (Decidable (_ ∧ _))

theorem makeTemporary_eq_ok_iff : fs.makeTemporary dir = .ok (l, fs₁) ↔
    fs.tree.resolveEntry fs.cwd (fs.temporaryPath dir) = .ok l ∧
      fs₁ = fs.put l (.file fs.newMode []) := by
  simp only [makeTemporary]
  cases fs.tree.resolveEntry fs.cwd (fs.temporaryPath dir) with
  | error f => simp
  | ok l' =>
    simp only [Except.ok.injEq, Prod.mk.injEq]
    refine and_congr_right fun hl => ?_
    rw [hl, eq_comm]

theorem isPlace_of_makeTemporary (hd : dir.bytes ≠ [])
    (h : fs.makeTemporary dir = .ok (l, fs₁)) :
    fs.tree.IsPlace l ∧ fs.tree.get? l = none ∧ fs₁ = fs.put l (.file fs.newMode []) := by
  obtain ⟨hr, rfl⟩ := makeTemporary_eq_ok_iff.1 h
  obtain ⟨before, last, parent, hn, rfl⟩ := exists_namesEntry hr
  obtain ⟨taken, hpath, htaken⟩ := fs.exists_temporaryPath dir
  have hb := fs.fromTop_bytes_ne_nil hd
  obtain ⟨hslash, -, -⟩ := fs.naming.plain taken
  have hnames := hn.names
  rw [hpath, Path.names_join hb (fs.naming.pick_ne_nil taken) hslash] at hnames
  obtain ⟨rfl, hlast⟩ := List.append_inj' hnames rfl
  obtain rfl := (List.cons.inj hlast).1
  -- The directory is listed where the file is made, and its name is not among those listed.
  obtain ⟨h₀, -, hlen⟩ := checkPath_eq_ok_iff.1 hn.taken
  obtain ⟨k, hk, hl⟩ := hn.leads
  rw [hpath] at h₀ hlen hl
  rw [start, Path.isAbsolute_join _ hb, ← start] at hl
  have hnul : 0 ∉ (fs.fromTop dir).bytes := by
    intro hm
    refine h₀ ?_
    unfold Path.join
    split <;> simp [hm]
  have hle := Path.length_join (p := fs.fromTop dir) (n := fs.naming.pick taken)
  have hreach : fs.Reaches (fs.fromTop dir) parent := by
    refine ⟨hnul, hb, by omega, k, hk, ?_⟩
    rcases (fs.fromTop dir).steps_eq with hs | hs
    · rw [hs]
      exact hl.of_slash_end
    · rw [hs]
      exact hl
  have hdir := hn.isDir_parent
  have hnone : fs.tree.get? (fs.naming.pick taken :: parent) = none := by
    obtain rfl := htaken _ (list_of_reaches hreach hdir)
    exact Option.eq_none_iff_forall_ne_some.2 fun d hg =>
      fs.naming.fresh _ (FileTree.mem_names_iff.2 ⟨d, hg⟩)
  refine ⟨hn.isPlace ?_, hnone, rfl⟩
  rw [FileTree.isDir, hnone]
  rfl

/-- The path of the file beside another one is as long as all the names on it, if no dots are
left out. -/
theorem le_length_temporaryPath (fs : FileSystem) {s : Name}
    (h : p.names = before ++ [s, last]) (hs : s ≠ [Path.dot])
    (hlast : FileTree.isDots last = false) :
    ∃ taken, (before ++ [s]).flatten.length + (before ++ [s]).length +
      (fs.naming.pick taken).length ≤ (fs.temporaryPath (directoryOf p)).bytes.length := by
  have hnames : p.names = (before ++ [s]) ++ [last] := by simp [h]
  obtain ⟨hd, -, -, xs, ds, es, hb, hdir, hds, -⟩ := isDirectoryOf_directoryOf hnames hlast
  obtain ⟨taken, hpath, -⟩ := fs.exists_temporaryPath (directoryOf p)
  have hjoin := Path.names_join (fs.fromTop_bytes_ne_nil hd) (fs.naming.pick_ne_nil taken)
    (fs.naming.plain taken).1
  have hxs : xs = before ++ [s] := by
    rcases List.eq_nil_or_concat ds with rfl | ⟨ds', d, rfl⟩
    · rw [hb, List.append_nil]
    · rw [List.concat_eq_append, ← List.append_assoc] at hb
      obtain ⟨-, hsd⟩ := List.append_inj' hb rfl
      exact absurd ((List.cons.inj hsd).1.trans (hds d (by simp))) hs
  have htop : ∃ ns, (fs.fromTop (directoryOf p)).names = ns ++ (before ++ [s]) ++ es := by
    unfold fromTop
    split
    · exact ⟨[], by rw [hdir, hxs, List.nil_append]⟩
    · exact ⟨(Location.path fs.cwd).names, by
        rw [Path.names_join_path (Location.path_bytes_ne_nil fs.cwd), hdir, hxs]
        simp⟩
  obtain ⟨ns, htop⟩ := htop
  have hlen := Path.length_names (fs.temporaryPath (directoryOf p))
  rw [hpath, hjoin, htop] at hlen
  refine ⟨taken, ?_⟩
  rw [hpath]
  simp only [List.flatten_append, List.length_append, List.length_cons, List.length_nil,
    List.flatten_cons, List.flatten_nil, List.append_nil] at hlen ⊢
  omega

theorem hasRoom_of_makeTemporary (h : fs.makeTemporary dir = .ok (l, fs₁)) : fs.HasRoom dir := by
  obtain ⟨hr, -⟩ := makeTemporary_eq_ok_iff.1 h
  obtain ⟨before, last, parent, hn, -⟩ := exists_namesEntry hr
  refine ⟨(checkPath_eq_ok_iff.1 hn.taken).2.2, fun n hlast => ?_⟩
  rw [hn.names, List.getLast?_concat, Option.mem_some_iff] at hlast
  exact hlast ▸ hn.short

theorem exists_makeTemporary (h : fs.NamesEntry p before last parent)
    (hroom : fs.HasRoom (directoryOf p)) :
    ∃ l fs₁, fs.makeTemporary (directoryOf p) = .ok (l, fs₁) := by
  obtain ⟨hd, habs, hnul, xs, ds, es, rfl, hnames, hds, hes⟩ :=
    isDirectoryOf_directoryOf h.names h.notDots
  obtain ⟨taken, hpath, -⟩ := fs.exists_temporaryPath (directoryOf p)
  obtain ⟨hslash, hzero, hdots⟩ := fs.naming.plain taken
  have hb := fs.fromTop_bytes_ne_nil hd
  obtain ⟨h₀, -, -⟩ := checkPath_eq_ok_iff.1 h.taken
  have hjoin := Path.names_join hb (fs.naming.pick_ne_nil taken) hslash
  obtain ⟨k, hk, hl⟩ := h.leads
  have hstart : fs.start p = fs.start (directoryOf p) := by rw [start, start, habs]
  rw [hstart] at hl
  -- The way to the entry and the way to its directory differ in dots alone.
  have htop := leads_fromTop (hnames ▸ hl.change_dots hds hes)
  have hfree := nul_notMem_fromTop hl.isDir_here (hnul h₀)
  have hentry : fs.NamesEntry (fs.temporaryPath (directoryOf p)) (fs.fromTop (directoryOf p)).names
      (fs.naming.pick taken) parent := by
    rw [HasRoom, hpath, hjoin, List.getLast?_concat] at hroom
    rw [hpath]
    refine ⟨checkPath_eq_ok_iff.2 ⟨?_, Path.join_bytes_ne_nil hb, hroom.1⟩, hjoin, hdots,
      hroom.2 _ rfl, k, hk, ?_⟩
    · exact Path.nul_notMem_join hfree hzero
    · rwa [start, Path.isAbsolute_join _ hb, ← start, start_fromTop]
  exact ⟨_, _, makeTemporary_eq_ok_iff.2
    ⟨hentry.resolveEntry, rfl⟩⟩

/-- The mode that a file gets when it is written at a path: that of what is there, or the mode
of a new one. -/
def modeAt (fs : FileSystem) (p : Path) : Nat :=
  match fs.stat p with
  | .ok n => n.mode
  | .error _ => fs.newMode

theorem Reaches.mono {fs' : FileSystem} (hcwd : fs'.cwd = fs.cwd)
    (hsub : ∀ l n, fs.tree.get? l = some n → fs'.tree.get? l = some n) (h : fs.Reaches p l) :
    fs'.Reaches p l := by
  obtain ⟨h₀, h₁, h₂, k, hk, hl⟩ := h
  exact ⟨h₀, h₁, h₂, k, hk, start_congr hcwd p ▸ hl.mono hsub⟩

theorem Reaches.of_agree {fs' : FileSystem} {x : Location} (hcwd : fs'.cwd = fs.cwd)
    (hx : ∀ n, fs.tree.get? x = some n → n.isLink = false ∧ n.isDir = false)
    (hsame : ∀ l', l' ≠ x → fs'.tree.get? l' = fs.tree.get? l') (h : fs.Reaches p l)
    (hne : l ≠ x) : fs'.Reaches p l := by
  obtain ⟨h₀, h₁, h₂, k, hk, hl⟩ := h
  exact ⟨h₀, h₁, h₂, k, hk, start_congr hcwd p ▸ hl.of_agree hx hsame hne⟩

section New

variable {x : Location} (hx : fs.tree.IsPlace x) (hnone : fs.tree.get? x = none)
include hx

include hnone in
theorem stat_put_of_stat {m n : Node} (h : fs.stat p = .ok n) : (fs.put x m).stat p = .ok n := by
  obtain ⟨l, hlook⟩ := stat_eq_ok_iff.1 h
  obtain ⟨hr, hn⟩ := look_follow_eq_ok_iff.1 hlook
  have hsub : ∀ l n, fs.tree.get? l = some n → (fs.put x m).tree.get? l = some n := by
    intro l n hn
    refine (hx.get?_put_of_ne m fun he => ?_).trans hn
    rw [he, hnone] at hn
    cases hn
  have hcwd : (fs.put x m).cwd = fs.cwd := rfl
  exact stat_eq_ok_iff.2 ⟨l, look_follow_eq_ok_iff.2 ⟨hr.mono hcwd hsub, hsub l n hn⟩⟩

theorem stat_of_stat_put {m n : Node} (hlink : m.isLink = false) (hdir : m.isDir = false)
    (h : (fs.put x m).stat p = .ok n) : fs.stat p = .ok n ∨ n = m := by
  obtain ⟨l, hlook⟩ := stat_eq_ok_iff.1 h
  obtain ⟨hr, hn⟩ := look_follow_eq_ok_iff.1 hlook
  have hself := hx.get?_put_self m
  by_cases hl : l = x
  · subst hl
    exact .inr (Option.some.inj (hn.symm.trans hself))
  · have hnode : ∀ d, (fs.put x m).tree.get? x = some d → d.isLink = false ∧ d.isDir = false := by
      intro d hd
      obtain rfl := Option.some.inj (hself.symm.trans hd)
      exact ⟨hlink, hdir⟩
    have hother : ∀ l', l' ≠ x → fs.tree.get? l' = (fs.put x m).tree.get? l' :=
      fun l' hne => (hx.get?_put_of_ne m hne).symm
    have hcwd : fs.cwd = (fs.put x m).cwd := rfl
    exact .inl (stat_eq_ok_iff.2 ⟨l, look_follow_eq_ok_iff.2
      ⟨hr.of_agree hcwd hnode hother hl, (hother l hl).trans hn⟩⟩)

include hnone in
theorem modeAt_put : (fs.put x (.file fs.newMode [])).modeAt p = fs.modeAt p := by
  unfold modeAt
  cases hs : fs.stat p with
  | ok n => rw [stat_put_of_stat hx hnone hs]
  | error f =>
    cases hs' : (fs.put x (.file fs.newMode [])).stat p with
    | error f' => rfl
    | ok n =>
      rcases stat_of_stat_put hx rfl rfl hs' with h | rfl
      · rw [hs] at h
        cases h
      · rfl

end New

theorem put_put {x : Location} {m n : Node} (hx : fs.tree.IsPlace x) (hm : m.isDir = false) :
    (fs.put x m).put x n = fs.put x n :=
  congrArg (fun t => { fs with tree := t }) (hx.put_put n hm)

theorem erase_put {x : Location} {n : Node} (hx : fs.tree.IsPlace x)
    (hnone : fs.tree.get? x = none) : (fs.put x n).erase x = fs :=
  congrArg (fun t => { fs with tree := t }) (hx.erase_put hnone n)

/-- A path names a place where a file can be put. -/
def NamesPlace (fs : FileSystem) (p : Path) (l : Location) : Prop :=
  fs.tree.resolveEntry fs.cwd p = .ok l ∧ p.bytes.getLast? ≠ some Path.slash ∧
    fs.tree.isDir l = false

theorem rename_put_eq_ok_iff {x : Location} {mode : Nat} {fs' : FileSystem}
    (hx : fs.tree.IsPlace x) (hnone : fs.tree.get? x = none) :
    (fs.put x (.file mode content)).rename x p = .ok fs' ↔
      ∃ l, fs.NamesPlace p l ∧ fs' = fs.put l (.file mode content) := by
  have hold : ∀ d, fs.tree.get? x = some d → d.isLink = false := by
    intro d hd
    rw [hnone] at hd
    cases hd
  have hentry : ∀ l, (fs.put x (.file mode content)).tree.resolveEntry fs.cwd p = .ok l ↔
      fs.tree.resolveEntry fs.cwd p = .ok l := fun l => resolveEntry_put hx hold rfl rfl
  have hself : (fs.put x (.file mode content)).tree.get? x = some (.file mode content) :=
    hx.get?_put_self _
  have hcwd : (fs.put x (.file mode content)).cwd = fs.cwd := rfl
  have hdir : ∀ l, (fs.put x (.file mode content)).tree.isDir l = fs.tree.isDir l :=
    fun l => hx.isDir_put rfl
  unfold rename NamesPlace
  rw [hcwd]
  cases hr : (fs.put x (.file mode content)).tree.resolveEntry fs.cwd p with
  | error f =>
    have hno : ∀ l, fs.tree.resolveEntry fs.cwd p ≠ .ok l := by
      intro l hl
      rw [(hentry l).2 hl] at hr
      cases hr
    cases f <;> simp [hno]
  | ok l =>
    simp only [(hentry l).1 hr, hdir, hself, erase_put hx hnone, Except.ok.injEq]
    by_cases hs : p.bytes.getLast? = some Path.slash
    · simp [hs]
    · cases hd : fs.tree.isDir l with
      | true => simp [hs, hd]
      | false =>
        simp only [if_neg hs, Bool.false_eq_true, if_false, Except.ok.injEq]
        constructor
        · rintro rfl
          exact ⟨l, ⟨rfl, hs, hd⟩, rfl⟩
        · rintro ⟨l', ⟨rfl, -, -⟩, rfl⟩
          rfl

theorem replace_eq (fs : FileSystem) (p : Path) (content : Bytes) :
    fs.replace p content =
      match fs.makeTemporary (directoryOf p) with
      | .error f => (fs, .error (.inDirectory (directoryOf p) f))
      | .ok (x, _) =>
        match (fs.put x (.file (fs.modeAt p) content)).rename x p with
        | .ok fs' => (fs', .ok ())
        | .error f => (fs, .error (.atFile f)) := by
  unfold replace
  cases hm : fs.makeTemporary (directoryOf p) with
  | error f => simp only [hm]
  | ok r =>
    obtain ⟨x, fs₁⟩ := r
    obtain ⟨hx, hnone, rfl⟩ := isPlace_of_makeTemporary (directoryOf_bytes_ne_nil p) hm
    have hfile : (Node.file fs.newMode []).isDir = false := rfl
    simp only [hm, put_put hx hfile, erase_put hx hnone]
    rw [← modeAt_put hx hnone]
    rfl

theorem replace_cases (fs : FileSystem) (p : Path) (content : Bytes) :
    (∃ f, fs.replace p content = (fs, .error f)) ∨
    (∃ l, fs.NamesPlace p l ∧
      fs.replace p content = (fs.put l (.file (fs.modeAt p) content), .ok ())) := by
  rw [replace_eq]
  cases hm : fs.makeTemporary (directoryOf p) with
  | error f => exact .inl ⟨_, rfl⟩
  | ok r =>
    obtain ⟨x, fs₁⟩ := r
    obtain ⟨hx, hnone, -⟩ := isPlace_of_makeTemporary (directoryOf_bytes_ne_nil p) hm
    cases hr : (fs.put x (.file (fs.modeAt p) content)).rename x p with
    | error f => exact .inl ⟨.atFile f, by simp only [hr]⟩
    | ok fs' =>
      obtain ⟨l, hl, rfl⟩ := (rename_put_eq_ok_iff hx hnone).1 hr
      exact .inr ⟨l, hl, by simp only [hr]⟩

theorem replace_of_namesPlace (h : fs.NamesPlace p l) (hroom : fs.HasRoom (directoryOf p)) :
    fs.replace p content = (fs.put l (.file (fs.modeAt p) content), .ok ()) := by
  obtain ⟨before, last, parent, hn, rfl⟩ := exists_namesEntry h.1
  obtain ⟨x, fs₁, hm⟩ := exists_makeTemporary hn hroom
  obtain ⟨hx, hnone, -⟩ := isPlace_of_makeTemporary (directoryOf_bytes_ne_nil p) hm
  have hr : (fs.put x (.file (fs.modeAt p) content)).rename x p = .ok _ :=
    (rename_put_eq_ok_iff hx hnone).2 ⟨_, h, rfl⟩
  simp only [replace_eq, hm, hr]

theorem replace_of_not_hasRoom (hroom : ¬ fs.HasRoom (directoryOf p)) :
    ∃ f, fs.replace p content = (fs, .error (.inDirectory (directoryOf p) f)) := by
  rw [replace_eq]
  cases hm : fs.makeTemporary (directoryOf p) with
  | error f => exact ⟨f, rfl⟩
  | ok r => exact absurd (hasRoom_of_makeTemporary hm) hroom

end FileSystem

end ResourceManifest
