import ResourceManifest.Proofs.Manifest.Alike
import ResourceManifest.Proofs.Run.Jobs

/-!
Jobs whose order makes no difference. Where every job writes over a file of its own, none changes
anything that another one looks at: each has the answer that it would have on its own, and leaves
its manifest.
-/

set_option autoImplicit false

namespace ResourceManifest

def FileSystem.NamesFile (fs : FileSystem) (p : Path) (l : Location) (mode : Nat) : Prop :=
  fs.tree.resolveEntry fs.cwd p = .ok l ∧ ∃ c, fs.tree.get? l = some (.file mode c)

namespace Manifest

variable {fs fs' : FileSystem} {job : Job} {l : Location} {mode : Nat}

theorem namesFile_of_alike (ha : fs.Alike fs') (h : fs.NamesFile job.output l mode) :
    fs'.NamesFile job.output l mode := by
  obtain ⟨hr, c, hg⟩ := h
  refine ⟨by rw [ha.cwd, ← ha.shape.resolveEntry, hr], ?_⟩
  rcases ha.shape.get?_cases l with ⟨hnone, -⟩ | ⟨n, n', hn, hn', hblank⟩
  · rw [hg] at hnone
    cases hnone
  · rw [hg] at hn
    obtain rfl := Option.some.inj hn
    rcases Node.eq_or_file_of_blank hblank with rfl | ⟨_, _, c', hm, rfl⟩
    · exact ⟨c, hn'⟩
    · obtain ⟨rfl, -⟩ := Node.file.inj hm
      exact ⟨c', hn'⟩

theorem suits_of_namesFile {r : Listing} (h : fs.NamesFile job.output l mode)
    (hr : (list fs job).2.result = .ok r) : Suits fs job.output job.mode l := by
  obtain ⟨hl, c, hg⟩ := h
  have hopen : ∀ l', fs.locate .create job.output = .ok l' ↔ fs.NamesPlace job.output l' := by
    refine fun l' => FileSystem.locate_create_iff_namesPlace fun l'' n hl'' hn => ?_
    cases hl.symm.trans hl''
    cases hg.symm.trans hn
    rfl
  obtain ⟨l', ht, hcase⟩ := write_eq_ok (list_eq_ok hr).2.1
  cases hm : job.mode with
  | direct =>
    rw [hm] at ht
    have hplace := (hopen l').1 ht
    cases hl.symm.trans hplace.1
    refine ⟨ht, fun n hn => ?_⟩
    cases hg.symm.trans hn
    rfl
  | atomic =>
    rcases hcase with ⟨-, hs⟩ | ⟨hd, -⟩
    · rw [hm] at hs
      cases hl.symm.trans hs.1
      exact hs
    · rw [hm] at hd
      cases hd

end Manifest

namespace Run

open Manifest (list)

/-- Jobs that heed no ignore files and each write over a file of their own. -/
structure Independent (fs : FileSystem) (js : List Job) : Prop where
  plain : ∀ job ∈ js, job.respectIgnore = false
  named : ∀ job ∈ js, ∃ l mode, fs.NamesFile job.output l mode
  distinct : js.Pairwise fun a b => fs.tree.resolveEntry fs.cwd a.output ≠
    fs.tree.resolveEntry fs.cwd b.output

namespace Independent

variable {fs : FileSystem} {job : Job} {js js' : List Job}

theorem tail (h : Independent fs (job :: js)) : Independent fs js where
  plain j hj := h.plain j (List.mem_cons_of_mem _ hj)
  named j hj := h.named j (List.mem_cons_of_mem _ hj)
  distinct := (List.pairwise_cons.1 h.distinct).2

theorem perm (hp : js.Perm js') (h : Independent fs js) : Independent fs js' where
  plain j hj := h.plain j (hp.mem_iff.2 hj)
  named j hj := h.named j (hp.mem_iff.2 hj)
  distinct := (hp.pairwise_iff fun hab => Ne.symm hab).1 h.distinct

theorem head_ne (h : Independent fs (job :: js)) {l : Location}
    (hl : fs.tree.resolveEntry fs.cwd job.output = .ok l) {j : Job} (hj : j ∈ js) :
    fs.tree.resolveEntry fs.cwd j.output ≠ .ok l := by
  have hne := (List.pairwise_cons.1 h.distinct).1 j hj
  rw [hl] at hne
  exact hne.symm

end Independent

variable {fs fs₀ : FileSystem} {job : Job} {js js' : List Job} {listing : Job → Listing}
  {l : Location} {mode : Nat}

/-- On a state with the shape of the first one a job answers as it does there, and a file of its
own is all that it changes. -/
theorem list_of_alike (ha : fs₀.Alike fs) (hj : job.respectIgnore = false)
    (hl : fs₀.NamesFile job.output l mode) {r : Listing}
    (hr : (list fs₀ job).2.result = .ok r) :
    (list fs job).2.result = .ok r ∧ fs.Wrote (list fs job).1 l mode (Manifest.content r.entries) ∧
      fs₀.Alike (list fs job).1 := by
  have hr' : (list fs job).2.result = .ok r := by rw [← (ha.list_job hj).1, hr]
  have hname := Manifest.namesFile_of_alike ha hl
  obtain ⟨c, hc⟩ := hname.2
  have hw := Manifest.list_wrote (Manifest.suits_of_namesFile hname hr') hc hr'
  exact ⟨hr', hw, ha.trans (hw.alike hc)⟩

theorem jobs_of_alike (h : Independent fs₀ js) (ha : fs₀.Alike fs)
    (hok : ∀ job ∈ js, (list fs₀ job).2.result = .ok (listing job)) :
    (jobs fs js).2.result = .ok (js.map listing) ∧ fs₀.Alike (jobs fs js).1 ∧
    ∀ l, (∀ job ∈ js, fs₀.tree.resolveEntry fs₀.cwd job.output ≠ .ok l) →
      (jobs fs js).1.tree.get? l = fs.tree.get? l := by
  induction js generalizing fs with
  | nil => exact ⟨rfl, ha, fun _ _ => rfl⟩
  | cons job js ih =>
    obtain ⟨l₀, mode, hl₀⟩ := h.named job List.mem_cons_self
    obtain ⟨hr, hw, ha'⟩ := list_of_alike ha (h.plain job List.mem_cons_self) hl₀
      (hok job List.mem_cons_self)
    obtain ⟨hres, ha'', hkeep⟩ := ih h.tail ha' fun j hj => hok j (List.mem_cons_of_mem _ hj)
    rw [jobs_cons_ok hr, hres]
    refine ⟨rfl, ha'', fun l hl => ?_⟩
    rw [hkeep l fun j hj => hl j (List.mem_cons_of_mem _ hj)]
    refine hw.others l fun he => hl job List.mem_cons_self ?_
    rw [he, hl₀.1]

theorem get?_jobs_of_mem (h : Independent fs₀ js) (ha : fs₀.Alike fs)
    (hok : ∀ job ∈ js, (list fs₀ job).2.result = .ok (listing job)) (hjob : job ∈ js)
    (hl : fs₀.NamesFile job.output l mode) :
    (jobs fs js).1.tree.get? l =
      some (.file mode (Manifest.content (listing job).entries)) := by
  induction js generalizing fs with
  | nil => cases hjob
  | cons j js ih =>
    have hok' : ∀ job ∈ js, (list fs₀ job).2.result = .ok (listing job) :=
      fun i hi => hok i (List.mem_cons_of_mem _ hi)
    have hj := h.plain j List.mem_cons_self
    rcases List.mem_cons.1 hjob with rfl | hjob
    · obtain ⟨hr, hw, ha'⟩ := list_of_alike ha hj hl (hok _ List.mem_cons_self)
      rw [jobs_cons_ok hr, (jobs_of_alike h.tail ha' hok').2.2 l fun i hi => h.head_ne hl.1 hi,
        hw.written]
    · obtain ⟨l₀, mode₀, hl₀⟩ := h.named j List.mem_cons_self
      obtain ⟨hr, -, ha'⟩ := list_of_alike ha hj hl₀ (hok j List.mem_cons_self)
      rw [jobs_cons_ok hr]
      exact ih h.tail ha' hok' hjob

theorem listing_of_jobs (h : Independent fs₀ js) (ha : fs₀.Alike fs) {rs : List Listing}
    (hrs : (jobs fs js).2.result = .ok rs) :
    ∀ job ∈ js, ∃ r, (list fs₀ job).2.result = .ok r := by
  induction js generalizing fs rs with
  | nil => exact fun job hj => nomatch hj
  | cons job js ih =>
    have hsame := (ha.list_job (h.plain job List.mem_cons_self)).1
    cases hr : (list fs₀ job).2.result with
    | error f =>
      rw [hsame] at hr
      rw [jobs_cons_error hr] at hrs
      cases hrs
    | ok r =>
      obtain ⟨l, mode, hl⟩ := h.named job List.mem_cons_self
      obtain ⟨hr', -, ha'⟩ := list_of_alike ha (h.plain job List.mem_cons_self) hl hr
      rw [jobs_cons_ok hr'] at hrs
      cases hmore : (jobs (list fs job).1 js).2.result with
      | error f =>
        rw [hmore] at hrs
        cases hrs
      | ok rs' =>
        intro j hj
        rcases List.mem_cons.1 hj with rfl | hj
        · exact ⟨r, hr⟩
        · exact ih h.tail ha' hmore j hj

theorem jobs_ok_iff (h : Independent fs js) : (∃ rs, (jobs fs js).2.result = .ok rs) ↔
    ∃ listing : Job → Listing, ∀ job ∈ js, (list fs job).2.result = .ok (listing job) := by
  constructor
  · intro hx
    obtain ⟨rs, hrs⟩ := hx
    refine ⟨fun job => match (list fs job).2.result with
      | .ok r => r
      | .error _ => ⟨"", "", []⟩, fun job hjob => ?_⟩
    obtain ⟨r, hr⟩ := listing_of_jobs h (.refl fs) hrs job hjob
    simp only [hr]
  · intro hx
    obtain ⟨listing, hok⟩ := hx
    exact ⟨_, (jobs_of_alike h (.refl fs) hok).1⟩

theorem get?_jobs_perm (hp : js.Perm js') (h : Independent fs js)
    (hok : ∀ job ∈ js, (list fs job).2.result = .ok (listing job)) (l : Location) :
    (jobs fs js').1.tree.get? l = (jobs fs js).1.tree.get? l := by
  have hok' : ∀ job ∈ js', (list fs job).2.result = .ok (listing job) :=
    fun job hj => hok job (hp.mem_iff.2 hj)
  by_cases hl : ∃ job ∈ js, fs.tree.resolveEntry fs.cwd job.output = .ok l
  · obtain ⟨job, hj, hl⟩ := hl
    obtain ⟨l', mode, hname⟩ := h.named job hj
    obtain rfl : l' = l := Except.ok.inj (hname.1.symm.trans hl)
    rw [get?_jobs_of_mem h (.refl fs) hok hj hname,
      get?_jobs_of_mem (h.perm hp) (.refl fs) hok' (hp.mem_iff.1 hj) hname]
  · have hno : ∀ job ∈ js, fs.tree.resolveEntry fs.cwd job.output ≠ .ok l :=
      fun job hj he => hl ⟨job, hj, he⟩
    rw [(jobs_of_alike h (.refl fs) hok).2.2 l hno, (jobs_of_alike (h.perm hp) (.refl fs) hok').2.2 l
      fun job hj => hno job (hp.mem_iff.2 hj)]

/-- In another order such jobs succeed exactly where they did, each with the same manifest, and
leave the same at every location and so at every path. -/
theorem jobs_perm (hp : js.Perm js') (h : Independent fs js) :
    ((∃ rs, (jobs fs js).2.result = .ok rs) ↔ ∃ rs, (jobs fs js').2.result = .ok rs) ∧
    ∀ rs, (jobs fs js).2.result = .ok rs → ∃ listing : Job → Listing,
      rs = js.map listing ∧ (jobs fs js').2.result = .ok (js'.map listing) ∧
      (∀ l, (jobs fs js').1.tree.get? l = (jobs fs js).1.tree.get? l) ∧
      ∀ ending p, (jobs fs js').1.look ending p = (jobs fs js).1.look ending p := by
  have h' := h.perm hp
  have hmem : ∀ job, job ∈ js ↔ job ∈ js' := fun job => hp.mem_iff
  refine ⟨by simp only [jobs_ok_iff h, jobs_ok_iff h', hmem], fun rs hrs => ?_⟩
  obtain ⟨listing, hok⟩ := (jobs_ok_iff h).1 ⟨rs, hrs⟩
  obtain ⟨hres, ha, -⟩ := jobs_of_alike h (.refl fs) hok
  obtain ⟨hres', ha', -⟩ := jobs_of_alike h' (.refl fs) fun job hj => hok job ((hmem job).2 hj)
  have hsame := get?_jobs_perm hp h hok
  refine ⟨listing, Except.ok.inj (hrs.symm.trans hres), hres', hsame, fun ending p => ?_⟩
  rw [FileSystem.look, FileSystem.look, ← ha'.locate, ← ha.locate]
  simp only [hsame]

def manifestTree : FileTree :=
  let d : Name := [0x64]
  ((FileTree.empty.put [d] (.dir 0o755)).put [[0x6D, 0x2E, 0x6A, 0x73, 0x6F, 0x6E], d]
    (.file 0o600 [0x5B, 0x5D])).put [[0x6E, 0x2E, 0x6A, 0x73, 0x6F, 0x6E]] (.file 0o644 [])

theorem jobs_perm_found_by_each_other :
    let fs : FileSystem := { tree := manifestTree }
    let a : Job := { output := .ofString "d/m.json", allowed := ["json"] }
    let b : Job := { output := .ofString "./n.json", allowed := ["json"], mode := .atomic }
    let found := ["d/m.json", "n.json"]
    (jobs fs [a, b]).2.result = .ok [⟨".", "d/m.json", found⟩, ⟨".", "./n.json", found⟩] ∧
    (jobs fs [b, a]).2.result = .ok [⟨".", "./n.json", found⟩, ⟨".", "d/m.json", found⟩] ∧
    ∀ l, (jobs fs [b, a]).1.tree.get? l = (jobs fs [a, b]).1.tree.get? l := by
  intro fs a b found
  have hrs : (jobs fs [a, b]).2.result =
      .ok [⟨".", "d/m.json", found⟩, ⟨".", "./n.json", found⟩] := by decide +kernel
  have ha : fs.NamesFile a.output [[0x6D, 0x2E, 0x6A, 0x73, 0x6F, 0x6E], [0x64]] 0o600 :=
    ⟨by decide +kernel, _, rfl⟩
  have hb : fs.NamesFile b.output [[0x6E, 0x2E, 0x6A, 0x73, 0x6F, 0x6E]] 0o644 :=
    ⟨by decide +kernel, _, rfl⟩
  have h : Independent fs [a, b] := by
    refine ⟨by simp [a, b], by simpa using ⟨⟨_, _, ha⟩, _, _, hb⟩, ?_⟩
    rw [List.pairwise_pair, ha.1, hb.1]
    decide
  obtain ⟨listing, hl, hl', hsame, -⟩ := (jobs_perm (.swap b a []) h).2 _ hrs
  obtain ⟨hla, hlb⟩ : ⟨".", "d/m.json", found⟩ = listing a ∧
      ⟨".", "./n.json", found⟩ = listing b := by simpa using hl
  refine ⟨hrs, ?_, hsame⟩
  rw [hl', hla, hlb]
  rfl

end Run

end ResourceManifest
