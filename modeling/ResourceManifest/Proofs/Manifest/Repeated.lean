import ResourceManifest.Proofs.FileSystem.Room
import ResourceManifest.Proofs.Manifest.Alike
import ResourceManifest.Proofs.Manifest.Ignoring
import ResourceManifest.Proofs.Walk.Filled

set_option autoImplicit false

namespace ResourceManifest

namespace FileSystem

variable {fs fs' : FileSystem} {p : Path} {l : Location} {mode : Nat} {c : Bytes}

/-- What a path leads to, over however many links, is a regular file, or there is nothing. -/
def LeadsToFile (fs : FileSystem) (p : Path) : Prop :=
  ∀ k l n, Leads fs.tree k (fs.start p) p.steps l → fs.tree.get? l = some n → n.isFile = true

theorem Wrote.isFile (hw : fs.Wrote fs' l mode c) :
    ∃ n, fs'.tree.get? l = some n ∧ n.isFile = true := ⟨_, hw.written, rfl⟩

theorem Wrote.filled_of_opensFile (hw : fs.Wrote fs' l mode c) (h : fs.OpensFile p l) :
    Filled fs.tree fs'.tree l where
  place := isPlace_of_locate_create h.1
  deadEnd := (isPlace_of_locate_create h.1).deadEnd fun n hn => Node.isLink_of_isFile (h.2 n hn)
  file := hw.isFile
  others := hw.others

theorem Wrote.filled_of_namesPlace (hw : fs.Wrote fs' l mode c) (h : fs.NamesPlace p l)
    (hp : fs.LeadsToFile p) : Filled fs.tree fs'.tree l where
  place := h.isPlace
  deadEnd := by
    rintro name parent k m rfl hm
    obtain ⟨before, last, parent', hn, he⟩ := exists_namesEntry h.1
    obtain ⟨rfl, rfl⟩ := List.cons.inj he
    obtain ⟨k', -, hl⟩ := hn.leads
    have hsteps : p.steps = before ++ [name] := (Path.steps_of_getLast? h.2.1).trans hn.names
    have hway := hl.of_slash_end.append hm
    rw [← hsteps] at hway
    cases hd : fs.tree.isDir m with
    | false => rfl
    | true =>
      obtain ⟨mode', hdir⟩ := FileTree.isDir_iff.1 hd
      cases hp _ m _ hway hdir
  file := hw.isFile
  others := hw.others

theorem Wrote.opensFile (hw : fs.Wrote fs' l mode c) (h : fs.OpensFile p l) :
    fs'.OpensFile p l := by
  obtain ⟨hc, k, hk, hl⟩ := locate_create_eq_ok_iff.1 h.1
  have hlead := hl.leads hw.others hw.written rfl
  refine ⟨locate_create_eq_ok_iff.2 ⟨hc, k, hk, ?_⟩, fun n hn => ?_⟩
  · rw [start_congr hw.cwd]
    exact hlead.opens hl.ne_nil hw.written rfl
  · cases hn.symm.trans hw.written
    rfl

theorem Wrote.namesPlace (hw : fs.Wrote fs' l mode c) (hf : Filled fs.tree fs'.tree l)
    (h : fs.NamesPlace p l) : fs'.NamesPlace p l := by
  obtain ⟨before, last, parent, hn, rfl⟩ := exists_namesEntry h.1
  obtain ⟨k, hk, hl⟩ := hn.leads
  obtain ⟨k', hk', hl'⟩ := hf.leads_dir hl hn.isDir_parent
  have hn' : fs'.NamesEntry p before last parent :=
    ⟨hn.taken, hn.names, hn.notDots, hn.short, k', by omega, by rwa [start_congr hw.cwd]⟩
  refine ⟨hn'.resolveEntry, h.2.1, ?_⟩
  rw [FileTree.isDir_of_get? hw.written]
  rfl

end FileSystem

namespace Manifest

variable {fs fs' : FileSystem} {job : Job} {l : Location} {mode : Nat} {c : Bytes}

theorem collect_ok_iff (hig : job.respectIgnore = false) :
    (∃ es, (collect fs job).result = .ok es) ↔
      ∃ r mode, fs.look .follow job.root = .ok (r, .dir mode) ∧
        ∀ w, .error w ∉ Walk.found fs job.followLinks Guard.open (pathLimit + 1) [] () job.root := by
  constructor
  · intro hx
    obtain ⟨es, hes⟩ := hx
    obtain ⟨r, mode, h⟩ := exists_look_of_collect hes
    refine ⟨r, mode, h, fun w hw => ?_⟩
    rcases collect_plain hig h rfl with ⟨found, hf, -⟩ | ⟨x, -, hc⟩
    · rw [hf] at hw
      simp at hw
    · rw [hes] at hc
      cases hc
  · intro hx
    obtain ⟨r, mode, h, hok⟩ := hx
    rcases collect_plain hig h rfl with ⟨found, -, hc⟩ | ⟨w, hw, -⟩
    · exact ⟨_, hc⟩
    · exact absurd hw (hok w)

theorem collect_of_filled (hig : job.respectIgnore = false) (h : Filled fs.tree fs'.tree l)
    (hcwd : fs'.cwd = fs.cwd) {es : List String} (hes : (collect fs job).result = .ok es) :
    ∃ es', (collect fs' job).result = .ok es' := by
  obtain ⟨r, mode, hlook, hok⟩ := (collect_ok_iff hig).1 ⟨es, hes⟩
  obtain ⟨r', d', hlook', hd, -⟩ := h.look hcwd hlook
  cases d' with
  | dir mode' => exact (collect_ok_iff hig).2 ⟨r', mode', hlook', Walk.found_of_filled h hcwd hok⟩
  | _ => cases hd

theorem list_ok {es : List String} (hc : (collect fs job).result = .ok es)
    (hw : write fs job.output es job.mode = (fs', .ok ())) :
    (list fs job).2.result = .ok ⟨job.root.toString, job.output.toString, es⟩ := by
  simp only [list, hc, hw]

theorem wrote_first (hout : fs.LeadsToFile job.output) {r : Listing}
    (hr : (list fs job).2.result = .ok r) :
    ∃ l mode, fs.Wrote (list fs job).1 l mode (content r.entries) ∧
      Filled fs.tree (list fs job).1.tree l ∧ Suits (list fs job).1 job.output job.mode l := by
  obtain ⟨l, ht, ⟨hw, hs⟩ | ⟨hm, -, n, hg, hn⟩⟩ := write_eq_ok (list_eq_ok hr).2.1
  · refine ⟨l, _, hw, ?_⟩
    cases hm : job.mode with
    | direct =>
      rw [hm] at hs
      exact ⟨hw.filled_of_opensFile hs, hw.opensFile hs⟩
    | atomic =>
      rw [hm] at hs
      have hf := hw.filled_of_namesPlace hs hout
      exact ⟨hf, hw.namesPlace hf hs⟩
  · -- Nothing is kept in a pipe or a device, but no path to a file leads there.
    exfalso
    rw [hm] at ht
    have hlook := FileSystem.stat_eq_ok_iff.1 (FileSystem.stat_of_locate_create ht hg)
    obtain ⟨m, hlook⟩ := hlook
    obtain ⟨⟨-, -, -, k, -, hl⟩, hgm⟩ := FileSystem.look_follow_eq_ok_iff.1 hlook
    have hfile := hout k m n hl hgm
    cases n <;> simp [Node.isFile, Node.isSpecial] at hfile hn

theorem length_nodes_list (hmode : job.mode = .atomic) :
    (list fs job).1.tree.nodes.length ≤ fs.tree.nodes.length + 1 := by
  rcases list_cases fs job with ⟨notes, f, hl⟩ | ⟨notes, es, fs', -, hw, hl⟩
  · rw [hl]
    exact Nat.le_succ _
  · rw [hl]
    rw [hmode] at hw
    rcases write_atomic_cases fs job.output es with ⟨q, f, hf⟩ | ⟨l, -, hput⟩
    · rw [hf] at hw
      cases hw
    · rw [hput] at hw
      cases hw
      exact FileSystem.length_nodes_put fs.tree l _

theorem hasRoom_of_list {r : Listing} (hmode : job.mode = .atomic)
    (hr : (list fs job).2.result = .ok r) :
    fs.HasRoom (FileSystem.directoryOf job.output) := by
  refine Decidable.not_not.1 fun hroom => ?_
  obtain ⟨f, hf⟩ := FileSystem.replace_of_not_hasRoom hroom
  have hw := congrArg Prod.snd (list_eq_ok hr).2.1
  rw [hmode, write_atomic_inDirectory hf] at hw
  cases hw

theorem write_of_suits (es : List String) (hs : Suits fs job.output job.mode l)
    (hroom : job.mode = .atomic → fs.HasRoom (FileSystem.directoryOf job.output)) :
    ∃ fs', write fs job.output es job.mode = (fs', .ok ()) := by
  cases hm : job.mode with
  | direct =>
    rw [hm] at hs
    exact ⟨_, write_direct_ok (FileSystem.overwrite_of_opensFile hs)⟩
  | atomic =>
    rw [hm] at hs
    exact ⟨_, write_atomic_ok (FileSystem.replace_of_namesPlace hs (hroom hm))⟩

/-- A job that has been done once can be done again and again, and from the second time on it
finds the same and leaves everything as it is. -/
theorem list_repeated (hig : job.respectIgnore = false) (hout : fs.LeadsToFile job.output)
    (hnaming : job.mode = .atomic → fs.naming.Uniform (fs.tree.nodes.length + 1))
    {r₁ : Listing} (h₁ : (list fs job).2.result = .ok r₁) :
    let fs₁ := (list fs job).1
    let fs₂ := (list fs₁ job).1
    let fs₃ := (list fs₂ job).1
    ∃ r, (list fs₁ job).2.result = .ok r ∧ (list fs₂ job).2.result = .ok r ∧
      (∀ l, fs₃.tree.get? l = fs₂.tree.get? l) ∧
      ∀ ending p, fs₃.look ending p = fs₂.look ending p := by
  intro fs₁ fs₂ fs₃
  obtain ⟨l, mode, hw₁, hf, hs₁⟩ := wrote_first hout h₁
  have hroom (hm : job.mode = .atomic) :
      fs₁.HasRoom (FileSystem.directoryOf job.output) :=
    (hasRoom_of_list hm h₁).of_uniform (hnaming hm) (Nat.le_succ _) (length_nodes_list hm)
      hw₁.cwd hw₁.naming (FileSystem.directoryOf_bytes_ne_nil job.output)
  obtain ⟨es, hes⟩ := collect_of_filled hig hf hw₁.cwd (list_eq_ok h₁).1
  obtain ⟨fs', hwrite⟩ := write_of_suits es hs₁ hroom
  have h₂ := list_ok hes hwrite
  have hw₂ := list_wrote hs₁ hw₁.written h₂
  have ha : fs₁.Alike fs₂ := hw₂.alike hw₁.written
  have h₃ := h₂
  rw [(ha.list_job hig).1] at h₃
  have hw₃ := list_wrote (suits_of_alike ha hs₁) hw₂.written h₃
  have hsame : ∀ l', fs₃.tree.get? l' = fs₂.tree.get? l' := by
    intro l'
    by_cases hl : l' = l
    · rw [hl, hw₃.written, hw₂.written]
    · exact hw₃.others l' hl
  refine ⟨_, h₂, h₃, hsame, fun ending p => ?_⟩
  have hloc := (hw₃.alike hw₂.written).locate ending p
  rw [FileSystem.look, FileSystem.look, hloc]
  simp only [hsame]
  rfl

def danglingTree : FileTree :=
  (FileTree.empty.put [[0x78, 0x2E, 0x70, 0x6E, 0x67]] (.file 0o644 [])).put
    [[0x6F, 0x2E, 0x70, 0x6E, 0x67]] (.link ⟨[0x6D]⟩)

theorem leadsToFile_danglingTree :
    FileSystem.LeadsToFile { tree := danglingTree } (.ofString "o.png") := by
  intro k l n hl hn
  have hsteps : (Path.ofString "o.png").steps = [[0x6F, 0x2E, 0x70, 0x6E, 0x67]] := by
    decide +kernel
  rw [hsteps] at hl
  have hlink : danglingTree.get? [[0x6F, 0x2E, 0x70, 0x6E, 0x67]] = some (.link ⟨[0x6D]⟩) := rfl
  have htarget : (⟨[0x6D]⟩ : Path).steps ++ [] = [[0x6D]] := rfl
  have hnone : danglingTree.get? [[0x6D]] = none := rfl
  cases hl with
  | stay _ hs _ => exact absurd hs (by decide)
  | entry hg hnl _ =>
    cases hg.symm.trans hlink
    cases hnl
  | link hg hl =>
    cases hg.symm.trans hlink
    rw [htarget] at hl
    cases hl with
    | stay _ hs _ => exact absurd hs (by decide)
    | entry hg _ _ => cases hg.symm.trans hnone
    | link hg _ => cases hg.symm.trans hnone

theorem list_repeated_over_link :
    let fs : FileSystem := { tree := danglingTree }
    let job : Job := { output := .ofString "o.png", mode := .atomic }
    let fs₁ := (list fs job).1
    let fs₂ := (list fs₁ job).1
    (list fs job).2.result = .ok ⟨".", "o.png", ["x.png"]⟩ ∧
    (list fs₁ job).2.result = .ok ⟨".", "o.png", ["o.png", "x.png"]⟩ ∧
    (list fs₂ job).2.result = .ok ⟨".", "o.png", ["o.png", "x.png"]⟩ ∧
    ∀ l, (list fs₂ job).1.tree.get? l = fs₂.tree.get? l := by
  intro fs job fs₁ fs₂
  have h₁ : (list fs job).2.result = .ok ⟨".", "o.png", ["x.png"]⟩ := by decide +kernel
  have h₂ : (list fs₁ job).2.result = .ok ⟨".", "o.png", ["o.png", "x.png"]⟩ := by decide +kernel
  obtain ⟨r, hr₂, hr₃, hsame, -⟩ := @list_repeated fs job rfl
    leadsToFile_danglingTree (fun _ => Naming.uniform_numbered (by decide)) _ h₁
  obtain rfl : _ = r := Except.ok.inj (h₂.symm.trans hr₂)
  exact ⟨h₁, h₂, hr₃, hsame⟩

def circleTree : FileTree :=
  (FileTree.empty.put [[0x78, 0x2E, 0x70, 0x6E, 0x67]] (.file 0o644 [])).put [[0x61]]
    (.link ⟨[Path.dot]⟩)

/-- To take the link so often is one time too many for the system, but for the entry to be
replaced it is only taken up to the last time. It is replaced by the manifest, and then there is
no way along the path any more. -/
theorem list_not_repeated_over_its_way :
    let fs : FileSystem := { tree := circleTree }
    let output := (⟨[0x61]⟩ : Path).joinAll (List.replicate 40 [0x61])
    let job : Job := { output := output, mode := .atomic }
    let dir := FileSystem.directoryOf output
    fs.stat output = .error .tooManyLinks ∧
    (list fs job).2.result = .ok ⟨".", output.toString, ["x.png"]⟩ ∧
    (list (list fs job).1 job).2.result =
      .error (.io dir (.creating (fs.temporaryPath dir) .notDirectory)) := by
  decide +kernel

end Manifest

end ResourceManifest
