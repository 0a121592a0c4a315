import ResourceManifest.Proofs.CommandLine.Kept
import ResourceManifest.Proofs.Json.Pretty
import ResourceManifest.Run

set_option autoImplicit false

namespace ResourceManifest.Run

variable {a : Arguments} {words : List Bytes}

def document : Except RunFailure (List Listing) → String
  | .ok ls => (Json.arr (ls.map Report.listingJson)).pretty
  | .error f => (Json.obj [("error", .str f.text)]).compact

def exitCode : Except RunFailure (List Listing) → Nat
  | .ok _ => 0
  | .error _ => 1

theorem main_of_json (s : Setting) (fs : FileSystem) (hp : Arguments.parse words = .ok a)
    (hj : a.json = true) :
    main s fs words =
      ⟨(arguments fs a).1, exitCode (arguments fs a).2.result,
        document (arguments fs a).2.result ++ "\n", log s (arguments fs a).2.notes⟩ := by
  cases hr : (arguments fs a).2.result with
  | ok ls => simp only [main, hp, hr, hj, if_true, document, exitCode, Report.json]
  | error f => simp only [main, hp, hr, hj, if_true, document, exitCode, Report.jsonError]

/-- A command line that asks for a document gets one and a line break, whatever the notes, and
nothing else. It decodes to the manifests in their order after a run that succeeds, and to the
failure and its causes after one that does not. The status says which; neither the status nor what
is left of the files is up to the surroundings. -/
theorem main_json (fs : FileSystem) (hp : Arguments.parse words = .ok a)
    (hj : Utf8.encode "--json" ∈ words) :
    ∃ doc code,
      (∀ s : Setting, main s fs words =
        ⟨(arguments fs a).1, code, doc ++ "\n", log s (arguments fs a).2.notes⟩) ∧
      ((∃ ls, (arguments fs a).2.result = .ok ls ∧ code = 0 ∧
          Json.IsDocument doc (.arr (ls.map fun l =>
            .obj [("root", .str l.root), ("output_file", .str l.output),
              ("entries", .arr (l.entries.map .str))]))) ∨
        ∃ f, (arguments fs a).2.result = .error f ∧ code = 1 ∧
          Json.IsDocument doc (.obj [("error", .str f.text)])) := by
  refine ⟨_, _, fun s => main_of_json s fs hp (Arguments.json_of_parse hj hp), ?_⟩
  cases (arguments fs a).2.result with
  | ok ls => exact .inl ⟨ls, rfl, rfl, Json.isDocument_pretty _⟩
  | error f => exact .inr ⟨f, rfl, rfl, Json.isDocument_compact _⟩

def oddName : Name := [0x22, 0x09, 0xFF, 0x2E, 0x70, 0x6E, 0x67]

theorem main_json_odd_name :
    let fs : FileSystem := { tree := FileTree.empty.put [oddName] (.file 0o644 []) }
    let quiet : Setting := {}
    let words : List Bytes := ["--output=m.json", "--json"]
    ∃ a doc code, Arguments.parse words = .ok a ∧
      (arguments fs a).2.result = .ok [⟨".", "m.json", ["\"\t\uFFFD.png"]⟩] ∧ code = 0 ∧
      main quiet fs words =
        ⟨(arguments fs a).1, code, doc ++ "\n", log quiet (arguments fs a).2.notes⟩ ∧
      Json.IsDocument doc (.arr [.obj [("root", .str "."), ("output_file", .str "m.json"),
        ("entries", .arr [.str "\"\t\uFFFD.png"])]]) := by
  intro fs quiet words
  have hp : Arguments.parse words = .ok { output := .ofString "m.json", json := true } := by
    decide +kernel
  have hres : (arguments fs { output := .ofString "m.json", json := true }).2.result =
      .ok [⟨".", "m.json", ["\"\t\uFFFD.png"]⟩] := by decide +kernel
  obtain ⟨doc, code, hmain, ⟨ls, hls, hcode, hdoc⟩ | ⟨f, hf, -, -⟩⟩ :=
    main_json fs hp (by decide)
  · obtain rfl := Except.ok.inj (hls.symm.trans hres)
    exact ⟨_, doc, code, hp, hres, hcode, hmain quiet, hdoc⟩
  · cases hf.symm.trans hres

end ResourceManifest.Run
