import ResourceManifest.Proofs.FileSystem.Dangling
import ResourceManifest.Proofs.Manifest.Seen

set_option autoImplicit false

namespace ResourceManifest

variable {fs fs' : FileSystem} {l : Location}

namespace AddsDangling

variable {σ : Type} {followLinks : Bool} {guard : Guard σ} {s : σ} {root : Path}

theorem seenAlike (h : AddsDangling fs fs' l)
    (hknown : ∀ dir k, guard.enter fs' k dir = guard.enter fs k dir)
    (hends : ∀ dir, guard.endless? fs' dir = guard.endless? fs dir)
    (hl : followLinks = true → ∀ v up, Walk.Visited fs' followLinks guard s root v up →
      v.location ≠ l.tail) :
    Walk.SeenAlike fs' fs followLinks guard s root where
  known _ _ _ k := hknown _ k
  entries v up hv name := by
    by_cases hname : name :: v.location = l
    · left
      obtain ⟨target, ht⟩ := h.link
      obtain ⟨f, hf⟩ := h.exists_look_error hname.symm (h.reaches_iff.2 hv.reaches.1)
      cases followLinks with
      | true => exact absurd (congrArg List.tail hname) (hl rfl v up hv)
      | false =>
        refine ⟨fun inside => ?_, Walk.mute_of_none (hname ▸ h.free)⟩
        simp [Walk.atEntry, hname, ht, Walk.kind, Walk.plainKind, hf]
    · exact .inr ⟨by rw [h.others _ hname], FileSystem.looksAlike_of_sameSuccess (h.look _).symm,
        fun _ _ _ => by rw [hends]⟩

theorem exists_emits (h : AddsDangling fs fs' l) (hfl : followLinks = true) {v : Walk.Visit σ}
    {up : List (Walk.Visit σ)} (hv : Walk.Visited fs' followLinks guard s root v up)
    (hl : v.location = l.tail) : ∃ w, Walk.Emits fs' followLinks guard root v up (.error w) := by
  subst hfl
  obtain ⟨target, ht⟩ := h.link
  cases l with
  | nil => simp at ht
  | cons name parent =>
    obtain rfl : v.location = parent := hl
    obtain ⟨f, hf⟩ := h.exists_look_error rfl (h.reaches_iff.2 hv.reaches.1)
    exact ⟨_, .broken ht (Walk.kind_eq_broken_iff.2
      (.inl (Walk.plainKind_eq_broken_iff.2 ⟨rfl, rfl, .inl ⟨f, hf, rfl⟩⟩)))⟩

theorem sameSuccess_contents (h : AddsDangling fs fs' l) (p : Path) :
    SameSuccess (fs'.contents p) (fs.contents p) :=
  FileSystem.contents_of_sameSuccess (h.look p).symm

theorem opensAlike (h : AddsDangling fs fs' l) (root : Path) : Walk.OpensAlike fs' fs root :=
  .of_contents h.ignoring.symm h.cwd.symm (h.look root).symm h.sameSuccess_contents

end AddsDangling

namespace Manifest

variable {job : Job}

/-- The walk of a job enters the directory at a location. -/
def Enters (fs : FileSystem) (job : Job) (l : Location) : Prop :=
  if job.respectIgnore then
    Walk.isStandardInput job.root = false ∧
      ∃ v up, v.location = l ∧ Walk.VisitedIgnoring fs job.followLinks job.root v up
  else
    ∃ v up, v.location = l ∧ Walk.Visited fs job.followLinks Guard.open () job.root v up

theorem sameSuccess_of_not_enters (h : AddsDangling fs fs' l)
    (hl : job.followLinks = true → ¬ Enters fs' job l.tail) :
    SameSuccess (collect fs' job).result (collect fs job).result := by
  have hroot := FileSystem.looksAlike_of_sameSuccess (h.look job.root).symm
  cases hig : job.respectIgnore with
  | false =>
    refine collect_plain_seen hig hroot
      (h.seenAlike (fun _ _ => rfl) (fun _ => rfl) fun hfl v up hv hloc => ?_)
    refine hl hfl ?_
    rw [Enters, hig]
    exact ⟨v, up, hloc, hv⟩
  | true =>
    have hop := (h.opensAlike job.root).opening
    refine collect_ignoring_seen hig hroot (by rw [hop]) (by rw [hop]) fun s hs => ?_
    refine h.seenAlike (fun dir k => IgnoreState.enter_congr h.ignoring.symm
        (fun _ => h.sameSuccess_contents _) k)
      (fun dir => IgnoreKind.endless?_congr fun _ => h.sameSuccess_contents _)
      fun hfl v up hv hloc => hl hfl ?_
    obtain ⟨hstd, -, rfl⟩ := Walk.opening_of_some hs
    rw [Enters, hig]
    exact ⟨hstd, v, up, hloc, hv⟩

theorem exists_error_of_enters (h : AddsDangling fs fs' l) (hfl : job.followLinks = true)
    (hl : Enters fs' job l.tail) : ∃ f, (collect fs' job).result = .error f := by
  cases hig : job.respectIgnore with
  | false =>
    rw [Enters, hig] at hl
    obtain ⟨v, up, hloc, hv⟩ := hl
    obtain ⟨w, he⟩ := h.exists_emits hfl hv hloc
    exact exists_error_of_emits_plain hig hv he
  | true =>
    rw [Enters, hig] at hl
    obtain ⟨hstd, v, up, hloc, hv⟩ := hl
    obtain ⟨w, he⟩ := h.exists_emits hfl hv hloc
    exact exists_error_of_emits_ignoring hig hstd hv he

/-- Where links are not followed a link that leads nowhere changes no listing, wherever it is put.
Where they are, it changes none but those of the walks that enter its directory, and these fail. -/
theorem collect_of_dangling (h : AddsDangling fs fs' l) :
    (job.followLinks = false →
      SameSuccess (collect fs' job).result (collect fs job).result) ∧
    (job.followLinks = true → ∀ es, (collect fs' job).result = .ok es ↔
      (collect fs job).result = .ok es ∧ ¬ Enters fs' job l.tail) := by
  refine ⟨fun hfl => sameSuccess_of_not_enters h fun hfl' => ?_, fun hfl es => ⟨fun hes => ?_, ?_⟩⟩
  · rw [hfl] at hfl'
    cases hfl'
  · have hno : ¬ Enters fs' job l.tail := by
      intro hl
      obtain ⟨f, hf⟩ := exists_error_of_enters h hfl hl
      rw [hes] at hf
      cases hf
    exact ⟨(sameSuccess_of_not_enters h (fun _ => hno) es).1 hes, hno⟩
  · rintro ⟨hes, hno⟩
    exact (sameSuccess_of_not_enters h (fun _ => hno) es).2 hes

def pictureTree : FileTree :=
  FileTree.empty.put [[0x78, 0x2E, 0x70, 0x6E, 0x67]] (.file 0o644 [])

theorem addsDangling_pictureTree :
    let fs : FileSystem := { tree := pictureTree }
    AddsDangling fs (fs.put [[0x67]] (.link (.ofString "nowhere"))) [[0x67]] := by
  intro fs
  refine addsDangling_put rfl rfl fun name parent x hl => ?_
  obtain ⟨rfl, rfl⟩ := List.cons.inj hl
  have hw : (fs.put [[0x67]] (.link (.ofString "nowhere"))).tree.walk .follow linkLimit []
      [[0x67]] = .error .notFound := by decide +kernel
  simp [hw]

theorem collect_of_dangling_beside_picture :
    let fs : FileSystem := { tree := pictureTree }
    let fs' := fs.put [[0x67]] (.link (.ofString "nowhere"))
    let root : Path := ⟨[Path.dot]⟩
    AddsDangling fs fs' [[0x67]] ∧
    (collect fs { root }).result = .ok ["x.png"] ∧ (collect fs' { root }).result = .ok ["x.png"] ∧
    (collect fs { root, followLinks := true }).result = .ok ["x.png"] ∧
    Enters fs' { root, followLinks := true } [] := by
  intro fs fs' root
  have h : AddsDangling fs fs' [[0x67]] := addsDangling_pictureTree
  have hc : (collect fs { root }).result = .ok ["x.png"] := by decide +kernel
  have hfc : (collect fs { root, followLinks := true }).result = .ok ["x.png"] := by decide +kernel
  refine ⟨h, hc, ((collect_of_dangling h).1 rfl _).2 hc, hfc, ?_⟩
  by_contra hno
  have hfc' : (collect fs' { root, followLinks := true }).result = .ok ["x.png"] :=
    ((collect_of_dangling h).2 rfl _).2 ⟨hfc, hno⟩
  have hne : (collect fs' { root, followLinks := true }).result ≠ .ok ["x.png"] := by decide +kernel
  exact hne hfc'

/-- With a dangling link beside the picture a listing that follows links fails, whether or not it
heeds ignore files. -/
theorem collect_dangling_followed :
    let fs : FileSystem := { tree := pictureTree }
    let fs' := fs.put [[0x67]] (.link (.ofString "nowhere"))
    let root : Path := ⟨[Path.dot]⟩
    let fault : WalkFault := .file (.ofString "./g") .notFound
    AddsDangling fs fs' [[0x67]] ∧
    (collect fs { root, followLinks := true }).result = .ok ["x.png"] ∧
    (collect fs' { root, followLinks := true }).result = .error (.walk root fault) ∧
    (collect fs { root, followLinks := true, respectIgnore := true }).result = .ok ["x.png"] ∧
    (collect fs' { root, followLinks := true, respectIgnore := true }).result =
      .error (.ignore root (.walk fault)) := by
  intro fs fs' root fault
  exact ⟨addsDangling_pictureTree, by decide +kernel, by decide +kernel, by decide +kernel,
    by decide +kernel⟩

end Manifest

end ResourceManifest
