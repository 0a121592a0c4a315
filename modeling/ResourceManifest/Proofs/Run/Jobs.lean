import ResourceManifest.Proofs.Manifest.Written
import ResourceManifest.Run

/-!
Runs of many jobs. Each starts from what the one before it has left, up to the first that fails.
That one leaves nothing, those behind it are not begun, and those in front of it have left their
manifests, where no later one has gone to the same place.
-/

set_option autoImplicit false

namespace ResourceManifest.Run

/-- What the first jobs of a list leave, one after the other. -/
def stateAt (fs : FileSystem) (js : List Job) (i : Nat) : FileSystem :=
  (js.take i).foldl (fun fs job => (Manifest.list fs job).1) fs

variable {fs : FileSystem} {job : Job} {js : List Job} {i k : Nat}

@[simp] theorem stateAt_zero (fs : FileSystem) (js : List Job) : stateAt fs js 0 = fs := rfl

@[simp] theorem stateAt_cons_succ (fs : FileSystem) (job : Job) (js : List Job) (i : Nat) :
    stateAt fs (job :: js) (i + 1) = stateAt (Manifest.list fs job).1 js i := rfl

theorem jobs_cons_error {f : Failure} (h : (Manifest.list fs job).2.result = .error f)
    (js : List Job) :
    jobs fs (job :: js) =
      (fs, ⟨(Manifest.list fs job).2.notes, .error (.listing job.root job.output f)⟩) := by
  rcases Manifest.list_cases fs job with ⟨notes, g, hl⟩ | ⟨notes, es, fs', -, -, hl⟩
  · rw [hl] at h
    cases h
    rw [jobs, hl]
  · rw [hl] at h
    cases h

theorem jobs_cons_ok {r : Listing} (h : (Manifest.list fs job).2.result = .ok r)
    (js : List Job) :
    jobs fs (job :: js) =
      ((jobs (Manifest.list fs job).1 js).1,
        ⟨(Manifest.list fs job).2.notes ++ (jobs (Manifest.list fs job).1 js).2.notes,
          (jobs (Manifest.list fs job).1 js).2.result.map (r :: ·)⟩) := by
  rw [jobs]
  generalize Manifest.list fs job = out at h
  obtain ⟨fs', notes, result⟩ := out
  cases h
  rfl

end ResourceManifest.Run
