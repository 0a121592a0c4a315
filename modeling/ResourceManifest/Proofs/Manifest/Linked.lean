import ResourceManifest.Proofs.Manifest.Plain
import ResourceManifest.Proofs.Walk.Graph

/-!
The listing that follows links to directories. It fails exactly if a directory can be reached from
itself below the root, as long as all links lead somewhere and no path is too long; otherwise it
names each file once for every way that leads to it.
-/

set_option autoImplicit false

namespace ResourceManifest

/-- The names are those of a path of the graph from `r` and of an entry at its end that is a
regular file, or leads to one, with an accepted extension. -/
def ListedLinked (t : FileTree) (r : Location) (allowed : List String) (ns : List Name) : Prop :=
  ∃ dirs name l l' mode content, ns = dirs ++ [name] ∧ LinkedDir t r dirs l ∧
    t.EntryOf l name l' ∧ t.get? l' = some (.file mode content) ∧
    isAllowed (Utf8.decodeLossy name) allowed = true

namespace Manifest

variable {fs : FileSystem} {job : Job} {r : Location} {mode : Nat}

theorem mem_linked_found_iff (h : fs.look .follow job.root = .ok (r, .dir mode))
    {found : List (List Name)}
    (hf : Walk.found fs true Guard.open (pathLimit + 1) [] () job.root = found.map .ok)
    (ns : List Name) : ns ∈ found.filter (accepted job.allowed) ↔
      ListedLinked fs.tree r job.allowed ns := by
  obtain ⟨hok, hmem⟩ := Walk.emits_of_found h rfl hf
  rw [List.mem_filter]
  constructor
  · intro hx
    obtain ⟨hns, ha⟩ := hx
    obtain ⟨v, up, hv, he⟩ := (hmem ns).1 hns
    cases he with
    | @regular name n hg hk _ =>
      obtain ⟨hdir, -⟩ := Walk.linkedDir_of_visited h hv v List.mem_cons_self
      have hallowed : isAllowed (Utf8.decodeLossy name) job.allowed = true := by
        simpa [accepted] using ha
      rcases Walk.kind_eq_regular_iff.1 hk with hn | ⟨-, l', d, hl, hd⟩
      · cases n with
        | file mode content =>
          exact ⟨_, name, _, _, mode, content, rfl, hdir, ⟨_, 0, hg, Leads.of_get? hg rfl⟩, hg,
            hallowed⟩
        | _ => simp [Node.isFile] at hn
      · cases d with
        | file mode content =>
          obtain ⟨-, hg'⟩ := FileSystem.look_follow_eq_ok_iff.1 hl
          exact ⟨_, name, _, l', mode, content, rfl, hdir, Walk.entryOf_of_look hv hg hl, hg',
            hallowed⟩
        | _ => simp [Node.isFile] at hd
  · intro hlisted
    obtain ⟨dirs, name, l, l', mode, content, hns, hdir, ⟨n, k, hg, hle⟩, hg', ha⟩ := hlisted
    obtain ⟨v, up, hv, rfl, rfl⟩ := Walk.visited_of_linkedDir hok h rfl hdir
    subst hns
    have hk : Walk.kind fs Guard.open true ((v :: up).map (Walk.Visit.ancestor job.root))
        (v.child job.root name) n = .regular := by
      refine Walk.kind_eq_regular_iff.2 ?_
      cases hn : n.isLink with
      | false =>
        obtain rfl := (hle.deterministic (Leads.of_get? hg hn)).1
        obtain rfl := Option.some.inj (hg.symm.trans hg')
        exact .inl rfl
      | true =>
        exact .inr ⟨rfl, l', _, Walk.look_of_entryOf hok hv hg hle hg' (.inl hn), rfl⟩
    exact ⟨(hmem _).2 ⟨v, up, hv, .regular hg hk rfl⟩, by simpa [accepted] using ha⟩

/-- With links followed a listing fails exactly if a link leads nowhere, a path grows too long, or
a directory is reached from itself; the last is told as a loop. If it does not fail it names the
file at the end of each path of the graph exactly once. -/
theorem collect_linked_exact (hig : job.respectIgnore = false) (hfl : job.followLinks = true)
    (h : fs.look .follow job.root = .ok (r, .dir mode)) :
    ((∃ f, (collect fs job).result = .error f) ↔
      Walk.Unresolved fs job.root ∨ Walk.TooLong fs job.root ∨ Cyclic fs.tree r) ∧
    (∀ f, (collect fs job).result = .error f → ∃ w, f = .walk job.root w ∧
      (Walk.Unresolved fs job.root ∨ Walk.TooLong fs job.root ∨ ∃ a p, w = .loop a p)) ∧
    ∀ es, (collect fs job).result = .ok es → ∃ found : List (List Name), found.Nodup ∧
      (∀ ns, ns ∈ found ↔ ListedLinked fs.tree r job.allowed ns) ∧
      es = found.map Path.entryText := by
  rcases collect_plain hig h rfl with ⟨found, hf, hc⟩ | ⟨w, hw, hc⟩
  · rw [hfl] at hf
    obtain ⟨hok, -⟩ := Walk.emits_of_found h rfl hf
    refine ⟨⟨?_, ?_⟩, ?_, ?_⟩
    · intro hx
      obtain ⟨f, hf⟩ := hx
      rw [hc] at hf
      cases hf
    · intro hreason
      exfalso
      rcases hreason with hu | ht | hcyc
      · exact Walk.not_unresolved hok hu
      · exact Walk.not_tooLong hok ht
      · exact Walk.not_cyclic hok h rfl hcyc
    · intro f hf
      rw [hc] at hf
      cases hf
    · intro es hes
      rw [hc] at hes
      have hd := Walk.found_distinct fs true Guard.open (pathLimit + 1) [] () job.root
      rw [hf] at hd
      exact ⟨found.filter (accepted job.allowed), hd.nodup.sublist List.filter_sublist,
        mem_linked_found_iff h hf, (Except.ok.inj hes).symm⟩
  · rw [hfl] at hw
    obtain ⟨v, up, hv, he⟩ := (Walk.mem_found_iff h rfl).1 hw
    have hreason := Walk.reason_of_emits h hv he
    refine ⟨⟨fun _ => ?_, fun _ => ⟨_, hc⟩⟩, ?_, ?_⟩
    · exact hreason.imp_right (.imp_right And.left)
    · intro f hf
      rw [hc] at hf
      exact ⟨w, (Except.error.inj hf).symm, hreason.imp_right (.imp_right And.right)⟩
    · intro es hes
      rw [hc] at hes
      cases hes

def diamondTree : FileTree :=
  ((((FileTree.empty.put [[0x64]] (.dir 0o755)).put
    [[0x78, 0x2E, 0x70, 0x6E, 0x67], [0x64]] (.file 0o644 [])).put
    [[0x61]] (.link ⟨[0x64]⟩)).put [[0x62]] (.link ⟨[0x2E, 0x2F, 0x61]⟩))

theorem collect_linked_exact_diamond :
    let fs : FileSystem := { tree := diamondTree }
    let job : Job := { root := ⟨[0x2E]⟩, followLinks := true }
    fs.look .follow job.root = .ok ([], .dir 0o755) ∧
    (collect fs job).result = .ok ["a/x.png", "b/x.png", "d/x.png"] ∧
    ¬ Cyclic fs.tree [] ∧
    ∃ found : List (List Name), found.Nodup ∧
      (∀ ns, ns ∈ found ↔ ListedLinked fs.tree [] job.allowed ns) ∧
      ["a/x.png", "b/x.png", "d/x.png"] = found.map Path.entryText := by
  have hc : (collect { tree := diamondTree } { root := ⟨[0x2E]⟩, followLinks := true }).result =
      .ok ["a/x.png", "b/x.png", "d/x.png"] := by cbv
  obtain ⟨hfails, -, hlists⟩ := @collect_linked_exact { tree := diamondTree }
    { root := ⟨[0x2E]⟩, followLinks := true } [] 0o755 rfl rfl rfl
  refine ⟨rfl, hc, fun hcyc => ?_, hlists _ hc⟩
  obtain ⟨f, hf⟩ := hfails.2 (.inr (.inr hcyc))
  rw [hc] at hf
  cases hf

/-- Without any link, and so without a cycle, a listing fails below a root of many dots. -/
theorem collect_linked_refused :
    let fs : FileSystem := { tree := longNameTree }
    let job : Job := { root := FileSystem.dotted 2040, followLinks := true }
    fs.look .follow job.root = .ok ([], .dir 0o755) ∧
    (∀ l target, fs.tree.get? l ≠ some (.link target)) ∧ ¬ Cyclic fs.tree [] ∧
    ∃ f, (collect fs job).result = .error f := by
  have hno : ∀ l target, longNameTree.get? l ≠ some (.link target) := by
    intro l target hl
    cases l with
    | nil => simp at hl
    | cons n l =>
      have hall : ∀ e ∈ longNameTree.nodes, e.2.isLink = false := by decide
      exact absurd (hall _ (FileTree.get?_cons_eq_some_iff.1 hl)) (by simp [Node.isLink])
  have hg : longNameTree.get? [List.replicate 20 0x64] = some (.dir 0o755) := rfl
  refine ⟨look_dotted_longNameTree, hno, LinkedDir.not_cyclic_of_no_links hno, ?_⟩
  cases hc : (collect { tree := longNameTree }
      { root := FileSystem.dotted 2040, followLinks := true }).result with
  | error f => exact ⟨f, rfl⟩
  | ok es =>
    exact absurd hc (collect_dotted_ne_ok rfl rfl (by decide) (by decide) (FileTree.get?_nil _) hg
      (by decide) es)

end Manifest

end ResourceManifest
