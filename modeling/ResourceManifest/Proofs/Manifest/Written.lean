import ResourceManifest.Manifest
import ResourceManifest.Proofs.FileSystem.Write
import ResourceManifest.Proofs.Json.Reading

set_option autoImplicit false

namespace ResourceManifest.Manifest

variable {fs fs' : FileSystem} {job : Job} {output : Path} {es : List String} {l : Location}

theorem write_direct_ok (h : fs.overwrite output (content es) = .ok fs') :
    write fs output es .direct = (fs', .ok ()) := by
  unfold write
  simp only [h]

theorem write_direct_error {f : FileFault} (h : fs.overwrite output (content es) = .error f) :
    write fs output es .direct = (fs, .error (.io output f)) := by
  unfold write
  simp only [h]

theorem write_atomic_ok (h : fs.replace output (content es) = (fs', .ok ())) :
    write fs output es .atomic = (fs', .ok ()) := by
  unfold write
  simp only [h]

theorem write_atomic_inDirectory {dir : Path} {f : FileFault}
    (h : fs.replace output (content es) = (fs', .error (.inDirectory dir f))) :
    write fs output es .atomic = (fs', .error (.io dir f)) := by
  unfold write
  simp only [h]

theorem write_atomic_atFile {f : FileFault}
    (h : fs.replace output (content es) = (fs', .error (.atFile f))) :
    write fs output es .atomic = (fs', .error (.io output f)) := by
  unfold write
  simp only [h]

theorem write_atomic_cases (fs : FileSystem) (output : Path) (es : List String) :
    (∃ q f, write fs output es .atomic = (fs, .error (.io q f))) ∨
    (∃ l, fs.NamesPlace output l ∧ write fs output es .atomic =
      (fs.put l (.file (fs.modeAt output) (content es)), .ok ())) := by
  rcases fs.replace_cases output (content es) with ⟨f, h⟩ | ⟨l, hl, h⟩
  · cases f with
    | inDirectory dir f => exact .inl ⟨dir, f, write_atomic_inDirectory h⟩
    | atFile f => exact .inl ⟨output, f, write_atomic_atFile h⟩
  · exact .inr ⟨l, hl, write_atomic_ok h⟩

theorem write_cases (fs : FileSystem) (output : Path) (es : List String) (mode : WriteMode) :
    (∃ p f, write fs output es mode = (fs, .error (.io p f))) ∨
    (∃ fs', write fs output es mode = (fs', .ok ())) := by
  cases mode with
  | direct =>
    cases h : fs.overwrite output (content es) with
    | error f => exact .inl ⟨output, f, write_direct_error h⟩
    | ok fs' => exact .inr ⟨fs', write_direct_ok h⟩
  | atomic =>
    rcases write_atomic_cases fs output es with ⟨q, f, h⟩ | ⟨l, -, h⟩
    · exact .inl ⟨q, f, h⟩
    · exact .inr ⟨_, h⟩

theorem list_cases (fs : FileSystem) (job : Job) :
    (∃ notes f, list fs job = (fs, ⟨notes, .error f⟩)) ∨
    (∃ notes es fs', (collect fs job).result = .ok es ∧
      write fs job.output es job.mode = (fs', .ok ()) ∧
      list fs job = (fs', ⟨notes, .ok ⟨job.root.toString, job.output.toString, es⟩⟩)) := by
  unfold list
  cases hc : (collect fs job).result with
  | error f => exact .inl ⟨(collect fs job).notes, f, by simp only [hc]⟩
  | ok es =>
    rcases write_cases fs job.output es job.mode with ⟨p, f, hw⟩ | ⟨fs', hw⟩
    · exact .inl ⟨(collect fs job).notes, .io p f, by simp only [hc, hw]⟩
    · exact .inr ⟨(collect fs job).notes ++ [.written job.root job.output es.length job.mode],
        es, fs', rfl, hw, by simp only [hc, hw]⟩

/-- Where a manifest goes: to the end of all links, or to the entry that is named. -/
def target (fs : FileSystem) (output : Path) : WriteMode → Except FileFault Location
  | .direct => fs.locate .create output
  | .atomic => fs.tree.resolveEntry fs.cwd output

/-- A manifest can be written there: over a file or where there is none yet, or in place of
whatever is no directory. -/
def Suits (fs : FileSystem) (output : Path) : WriteMode → Location → Prop
  | .direct => fs.OpensFile output
  | .atomic => fs.NamesPlace output

/-- To write changes the file at the target alone, and not even that where a pipe or a device
takes what is written. -/
theorem write_eq_ok {mode : WriteMode} (h : write fs output es mode = (fs', .ok ())) :
    ∃ l, target fs output mode = .ok l ∧
      (fs.Wrote fs' l (fs.modeAt output) (content es) ∧ Suits fs output mode l ∨
      mode = .direct ∧ fs' = fs ∧ ∃ n, fs.tree.get? l = some n ∧ n.isSpecial = true) := by
  cases mode with
  | direct =>
    cases ho : fs.overwrite output (content es) with
    | error f =>
      rw [write_direct_error ho] at h
      cases h
    | ok fs₁ =>
      rw [write_direct_ok ho] at h
      cases h
      rcases FileSystem.overwrite_eq_ok ho with ⟨l, hl, rfl⟩ | ⟨l, n, hl, hg, hn, rfl⟩
      · exact ⟨l, hl.1,
          .inl ⟨FileSystem.wrote_put (FileSystem.isPlace_of_locate_create hl.1) _ _, hl⟩⟩
      · exact ⟨l, hl, .inr ⟨rfl, rfl, n, hg, hn⟩⟩
  | atomic =>
    rcases write_atomic_cases fs output es with ⟨q, f, hr⟩ | ⟨l, hl, hr⟩
    · rw [hr] at h
      cases h
    · rw [hr] at h
      cases h
      exact ⟨l, hl.1, .inl ⟨FileSystem.wrote_put hl.isPlace _ _, hl⟩⟩

theorem list_eq_ok {r : Listing} (h : (list fs job).2.result = .ok r) :
    (collect fs job).result = .ok r.entries ∧
      write fs job.output r.entries job.mode = ((list fs job).1, .ok ()) ∧
      r.root = job.root.toString ∧ r.output = job.output.toString := by
  rcases list_cases fs job with ⟨notes, f, hl⟩ | ⟨notes, es, fs', hc, hw, hl⟩
  · rw [hl] at h
    cases h
  · rw [hl] at h ⊢
    cases h
    exact ⟨hc, hw, rfl, rfl⟩

/-- A job that fails, for whatever reason, leaves everything as it was. -/
theorem list_failed_unchanged {f : Failure} (h : (list fs job).2.result = .error f) :
    (list fs job).1 = fs := by
  rcases list_cases fs job with ⟨notes, g, hl⟩ | ⟨notes, es, fs', -, -, hl⟩
  · rw [hl]
  · rw [hl] at h
    cases h

/-- A picture in a directory, a link to that directory, and one to a file that is not there. -/
def outputTree : FileTree :=
  let d : Name := [0x64]
  (((FileTree.empty.put [d] (.dir 0o755)).put [[0x78, 0x2E, 0x70, 0x6E, 0x67], d]
    (.file 0o644 [])).put [[0x61]] (.link ⟨d⟩)).put [[0x6F]] (.link ⟨[0x64, 0x2F, 0x6D]⟩)

theorem list_failed_unchanged_onto_directory :
    let fs : FileSystem := { tree := outputTree }
    let job : Job := { root := .ofString "d", output := .ofString "d", mode := .atomic }
    (list fs job).2.result = .error (.io job.output .isDirectory) ∧ (list fs job).1 = fs := by
  have h : (list { tree := outputTree }
      { root := .ofString "d", output := .ofString "d", mode := .atomic }).2.result =
        .error (.io (.ofString "d") .isDirectory) := by decide +kernel
  exact ⟨h, list_failed_unchanged h⟩

theorem content_eq (es : List String) : content es =
    Utf8.encodeChars ('[' :: [','].intercalate (es.map Json.writeString) ++ [']']) := by
  rw [← Json.write_strings]
  simp [content, Utf8.encode, Json.compact]

/-- A job that succeeds reports what was found, and its manifest is that, as one JSON array. It
has been written to one place, and all else is as before. To write over it goes to the end of all
links. To replace it goes to the entry that is named, and the path can be read there unless the
way to it went over a link that stood in that very place. -/
theorem list_written {r : Listing}
    (hkept : ∀ n, fs.stat job.output = .ok n → n.isSpecial = false)
    (h : (list fs job).2.result = .ok r) :
    (collect fs job).result = .ok r.entries ∧
    r.root = job.root.toString ∧ r.output = job.output.toString ∧
    content r.entries =
      Utf8.encodeChars ('[' :: [','].intercalate (r.entries.map Json.writeString) ++ [']']) ∧
    Json.decode? (content r.entries) = some (.arr (r.entries.map .str)) ∧
    ∃ l, fs.Wrote (list fs job).1 l (fs.modeAt job.output) (content r.entries) ∧
      match job.mode with
      | .direct => fs.OpensFile job.output l ∧
        (list fs job).1.read job.output = .ok (content r.entries)
      | .atomic => fs.NamesPlace job.output l ∧
        ((list fs job).1.read job.output = .ok (content r.entries) ↔
          (fs.erase l).tree.resolveEntry fs.cwd job.output = .ok l) ∧
        ((∀ n, fs.tree.get? l = some n → n.isLink = false) →
          (list fs job).1.read job.output = .ok (content r.entries)) := by
  obtain ⟨hc, hw, hroot, houtput⟩ := list_eq_ok h
  refine ⟨hc, hroot, houtput, content_eq _, Json.decode?_encode _, ?_⟩
  obtain ⟨l, hl, ⟨hwrote, hsuits⟩ | ⟨hmode, -, n, hg, hn⟩⟩ := write_eq_ok hw
  · refine ⟨l, hwrote, ?_⟩
    cases hm : job.mode with
    | direct =>
      rw [hm] at hsuits
      exact ⟨hsuits, FileSystem.read_of_reaches (hwrote.reaches hsuits.1) hwrote.written⟩
    | atomic =>
      rw [hm] at hsuits
      have hread := hwrote.read_of_resolveEntry_erase hsuits
      exact ⟨hsuits, ⟨hwrote.resolveEntry_erase hsuits, hread⟩,
        fun hlink => hread (hsuits.resolveEntry_erase hlink)⟩
  · rw [hmode] at hl
    rw [hkept n (FileSystem.stat_of_locate_create hl hg)] at hn
    cases hn

theorem list_written_through_link :
    let fs : FileSystem := { tree := outputTree }
    let job : Job := { root := .ofString "d", output := .ofString "o" }
    fs.stat job.output = .error .notFound ∧
    (list fs job).2.result = .ok ⟨"d", "o", ["x.png"]⟩ ∧
    ∃ l, fs.Wrote (list fs job).1 l (fs.modeAt job.output) (content ["x.png"]) ∧
      fs.OpensFile job.output l ∧ (list fs job).1.read job.output = .ok (content ["x.png"]) := by
  have hstat : ({ tree := outputTree } : FileSystem).stat (.ofString "o") = .error .notFound := by
    decide +kernel
  have h : (list { tree := outputTree }
      { root := .ofString "d", output := .ofString "o" }).2.result =
        .ok ⟨"d", "o", ["x.png"]⟩ := by decide +kernel
  exact ⟨hstat, h, (list_written (fun n hn => by rw [hstat] at hn; cases hn) h).2.2.2.2.2⟩

/-- The path to the link goes over the link, and after it has been replaced by the manifest there
is no such path any more. -/
theorem list_written_over_its_way :
    let fs : FileSystem := { tree := outputTree }
    let job : Job := { root := .ofString "d", output := .ofString "a/../a", mode := .atomic }
    fs.stat job.output = .ok (.dir 0o755) ∧
    (list fs job).2.result = .ok ⟨"d", "a/../a", ["x.png"]⟩ ∧
    (list fs job).1.read job.output = .error .notDirectory := by
  decide +kernel

end ResourceManifest.Manifest
