import ResourceManifest.Proofs.Walk.Bound
import ResourceManifest.Proofs.Walk.Member

set_option autoImplicit false

namespace ResourceManifest

def FileTree.EntryOf (t : FileTree) (l : Location) (name : Name) (l' : Location) : Prop :=
  ∃ n k, t.get? (name :: l) = some n ∧ Leads t k l [name] l'

inductive LinkedDir (t : FileTree) (r : Location) : List Name → Location → Prop where
  | root : LinkedDir t r [] r
  | edge {ns : List Name} {l l' : Location} {name : Name} :
      LinkedDir t r ns l → t.EntryOf l name l' → t.isDir l' = true →
      LinkedDir t r (ns ++ [name]) l'

/-- A path of the graph from `r` meets a directory again. -/
def Cyclic (t : FileTree) (r : Location) : Prop :=
  ∃ ns l ms, LinkedDir t r ns l ∧ ms ≠ [] ∧ LinkedDir t l ms l

namespace LinkedDir

variable {t : FileTree} {r l l' : Location}

theorem append {ns ms : List Name} (h : LinkedDir t r ns l) (h' : LinkedDir t l ms l') :
    LinkedDir t r (ns ++ ms) l' := by
  induction h' with
  | root => rwa [List.append_nil]
  | edge _ he hd ih =>
    rw [← List.append_assoc]
    exact .edge ih he hd

theorem unbounded {ns ms : List Name} (h : LinkedDir t r ns l) (hms : ms ≠ [])
    (hc : LinkedDir t l ms l) (k : Nat) : ∃ ns', k ≤ ns'.length ∧ LinkedDir t r ns' l := by
  induction k with
  | zero => exact ⟨ns, Nat.zero_le _, h⟩
  | succ k ih =>
    obtain ⟨ns', hk, hl⟩ := ih
    have hpos := List.length_pos_iff.2 hms
    refine ⟨ns' ++ ms, ?_, hl.append hc⟩
    rw [List.length_append]
    omega

theorem eq_of_no_links (hno : ∀ l target, t.get? l ≠ some (.link target)) {ns : List Name}
    (h : LinkedDir t r ns l) : l = ns.reverse ++ r := by
  induction h with
  | root => rfl
  | @edge ns l l' name _ he _ ih =>
    obtain ⟨n, k, hg, hle⟩ := he
    have hn : n.isLink = false := by
      cases n with
      | link target => exact absurd hg (hno _ target)
      | _ => rfl
    obtain rfl := (hle.deterministic (Leads.of_get? hg hn)).1
    simp [ih]

theorem not_cyclic_of_no_links (hno : ∀ l target, t.get? l ≠ some (.link target)) :
    ¬ Cyclic t r := by
  intro hcyc
  obtain ⟨ns, l, ms, -, hms, hback⟩ := hcyc
  have hl := congrArg List.length (hback.eq_of_no_links hno)
  have hpos := List.length_pos_iff.2 hms
  rw [List.length_append, List.length_reverse] at hl
  omega

end LinkedDir

namespace Walk

variable {fs : FileSystem} {root : Path} {r : Location} {d : Node} {σ : Type} {guard : Guard σ}
  {s : σ}

theorem entryOf_of_look {followLinks : Bool} {v : Visit σ} {up : List (Visit σ)} {name : Name}
    {n n' : Node} {l : Location} (hv : Visited fs followLinks guard s root v up)
    (hg : fs.tree.get? (name :: v.location) = some n)
    (hl : fs.look .follow (v.child root name) = .ok (l, n')) :
    fs.tree.EntryOf v.location name l := by
  obtain ⟨hr, -⟩ := FileSystem.look_follow_eq_ok_iff.1 hl
  obtain ⟨k, -, hle⟩ := hv.reaches.1.leads_of_join (FileTree.isEntryName_of_get? hg) hr
  exact ⟨n, k, hg, hle⟩

theorem eq_of_entryOf {followLinks : Bool} {v : Visit σ} {up : List (Visit σ)} {name : Name}
    {n' : Node} {l l' : Location} (hv : Visited fs followLinks guard s root v up)
    (he : fs.tree.EntryOf v.location name l')
    (hl : fs.look .follow (v.child root name) = .ok (l, n')) : l = l' := by
  obtain ⟨n, k, hg, hle⟩ := he
  obtain ⟨-, k', -, hle'⟩ := entryOf_of_look hv hg hl
  exact (hle'.deterministic hle).1

/-- The names of a way are those of a path of the graph, and so are those between two directories
on it. -/
theorem linkedDir_of_visited (h : fs.look .follow root = .ok (r, d)) {followLinks : Bool}
    {v : Visit σ} {up : List (Visit σ)} (hv : Visited fs followLinks guard s root v up) :
    ∀ w ∈ v :: up, LinkedDir fs.tree r w.names w.location ∧
      ∃ ms, LinkedDir fs.tree w.location ms v.location := by
  induction hv with
  | @root r' d' top h' _ _ =>
    cases h.symm.trans h'
    intro w hw
    obtain rfl := List.mem_singleton.1 hw
    exact ⟨.root, [], .root⟩
  | @entry v up name n d l hv hg hk hs hl ih =>
    have he := entryOf_of_look hv hg hl
    have hd := (Visited.entry hv hg hk hs hl).reaches.2
    intro w hw
    rcases List.mem_cons.1 hw with rfl | hw
    · obtain ⟨hr, -⟩ := ih v List.mem_cons_self
      exact ⟨.edge hr he hd, [], .root⟩
    · obtain ⟨hr, ms, hms⟩ := ih w hw
      exact ⟨hr, ms ++ [name], .edge hms he hd⟩

/-- A link that is met leads nowhere, as far as the system follows it. -/
def Unresolved (fs : FileSystem) (root : Path) : Prop :=
  ∃ v up name target, Visited fs true Guard.open () root v up ∧
    fs.tree.get? (name :: v.location) = some (.link target) ∧
    ∀ l n, fs.look .follow (v.child root name) ≠ .ok (l, n)

/-- A directory that is met, not over a link, has a path that the system does not take. -/
def TooLong (fs : FileSystem) (root : Path) : Prop :=
  ∃ v up name mode, Visited fs true Guard.open () root v up ∧
    fs.tree.get? (name :: v.location) = some (.dir mode) ∧
    pathLimit ≤ (v.child root name).bytes.length

theorem reason_of_emits (h : fs.look .follow root = .ok (r, d)) {v : Visit Unit}
    {up : List (Visit Unit)} {w : WalkFault} (hv : Visited fs true Guard.open () root v up)
    (he : Emits fs true Guard.open root v up (.error w)) :
    Unresolved fs root ∨ TooLong fs root ∨ Cyclic fs.tree r ∧ ∃ a p, w = .loop a p := by
  cases he with
  | @broken name n _ hg hk =>
    rw [kind_open] at hk
    obtain ⟨hn, -, hw⟩ := plainKind_eq_broken_iff.1 hk
    rcases hw with ⟨f, hl, -⟩ | ⟨l, d', hl, hd, a, hf, rfl⟩
    · cases n with
      | link target =>
        refine .inl ⟨v, up, name, target, hv, hg, ?_⟩
        intro l n hl'
        rw [hl] at hl'
        cases hl'
      | _ => simp [Node.isLink] at hn
    · -- The link leads back to a directory on the way, from where its own directory is reached.
      have ha := List.find?_some hf
      obtain ⟨x, hx, rfl⟩ := List.mem_map.1 (List.mem_of_find?_eq_some hf)
      obtain rfl : x.location = l := of_decide_eq_true ha
      obtain ⟨hr, ms, hms⟩ := linkedDir_of_visited h hv x hx
      have hback := LinkedDir.edge hms (entryOf_of_look hv hg hl) (hv.isDir_of_mem hx)
      exact .inr (.inr ⟨⟨_, _, _, hr, by simp, hback⟩, _, _, rfl⟩)
  | @closed name n f hg hk hs hl =>
    rw [kind_open] at hk
    cases n with
    | dir mode =>
      obtain ⟨hlong, -⟩ := FileSystem.too_long_of_look_join hv.reaches.1 hg rfl hl
      exact .inr (.inl ⟨v, up, name, mode, hv, hg, hlong⟩)
    | link target =>
      have hlink := (plainKind_eq_directory_iff.1 hk).resolve_left (by simp [Node.isDir])
      obtain ⟨-, -, l', d', hl', -⟩ := hlink
      rw [hl] at hl'
      cases hl'
    | _ => simp [plainKind] at hk

section NoFault

variable (hok : ∀ v up w, Visited fs true Guard.open () root v up →
  ¬ Emits fs true Guard.open root v up (.error w))

include hok

theorem not_unresolved : ¬ Unresolved fs root := by
  intro hu
  obtain ⟨v, up, name, target, hv, hg, hl⟩ := hu
  cases hc : fs.look .follow (v.child root name) with
  | ok x => exact hl _ _ hc
  | error f =>
    exact hok _ _ _ hv (.broken hg
      (kind_open.trans (plainKind_eq_broken_iff.2 ⟨rfl, rfl, .inl ⟨f, hc, rfl⟩⟩)))

theorem not_tooLong : ¬ TooLong fs root := by
  intro ht
  obtain ⟨v, up, name, mode, hv, hg, hlong⟩ := ht
  have hlt := length_child_lt hok hv hg
  omega

theorem look_of_entryOf {v : Visit Unit} {up : List (Visit Unit)}
    (hv : Visited fs true Guard.open () root v up) {name : Name} {n n' : Node}
    {l : Location} {k : Nat} (hg : fs.tree.get? (name :: v.location) = some n)
    (hle : Leads fs.tree k v.location [name] l) (hl : fs.tree.get? l = some n')
    (hn : n.isLink = true ∨ n'.isDir = true) :
    fs.look .follow (v.child root name) = .ok (l, n') := by
  cases hc : fs.look .follow (v.child root name) with
  | ok x =>
    obtain ⟨l'', d'⟩ := x
    obtain rfl := eq_of_entryOf hv ⟨n, k, hg, hle⟩ hc
    obtain ⟨-, hgd⟩ := FileSystem.look_follow_eq_ok_iff.1 hc
    rw [Option.some.inj (hgd.symm.trans hl)]
  | error f =>
    exfalso
    cases hlink : n.isLink with
    | true =>
      have hk : kind fs Guard.open true ((v :: up).map (Visit.ancestor root)) (v.child root name) n =
          .broken (.file (v.child root name) f) :=
        kind_open.trans (plainKind_eq_broken_iff.2 ⟨hlink, rfl, .inl ⟨f, hc, rfl⟩⟩)
      exact hok _ _ _ hv (.broken hg hk)
    | false =>
      obtain rfl := (hle.deterministic (Leads.of_get? hg hlink)).1
      obtain rfl := Option.some.inj (hg.symm.trans hl)
      have hk : kind fs Guard.open true ((v :: up).map (Visit.ancestor root)) (v.child root name) n =
          .directory :=
        kind_open.trans (plainKind_eq_directory_iff.2 (.inl (hn.resolve_left (by simp [hlink]))))
      exact hok _ _ _ hv (.closed hg hk rfl hc)

theorem visited_of_linkedDir (h : fs.look .follow root = .ok (r, d)) (hd : d.isDir = true)
    {ns : List Name} {l : Location} (hl : LinkedDir fs.tree r ns l) :
    ∃ v up, Visited fs true Guard.open () root v up ∧ v.names = ns ∧ v.location = l := by
  induction hl with
  | root =>
    obtain ⟨v, hv, hns, hloc⟩ := exists_visited_root h hd
    exact ⟨v, [], hv, hns, hloc⟩
  | @edge ns l l' name _ he hdir ih =>
    obtain ⟨v, up, hv, rfl, rfl⟩ := ih
    obtain ⟨n, k, hg, hle⟩ := he
    obtain ⟨mode, hm⟩ := FileTree.isDir_iff.1 hdir
    have hc := look_of_entryOf hok hv hg hle hm (.inr rfl)
    have hk : kind fs Guard.open true ((v :: up).map (Visit.ancestor root)) (v.child root name) n =
        .directory := by
      cases hn : n.isLink with
      | false =>
        obtain rfl := (hle.deterministic (Leads.of_get? hg hn)).1
        obtain rfl := Option.some.inj (hg.symm.trans hm)
        rfl
      | true =>
        refine kind_open.trans (plainKind_eq_directory_iff.2 (.inr ⟨hn, rfl, l', _, hc, rfl, ?_⟩))
        rw [← find?_location_eq_none_iff]
        cases hf : ((v :: up).map (Visit.ancestor root)).find? (·.location = l') with
        | none => rfl
        | some a =>
          have hk : plainKind fs true ((v :: up).map (Visit.ancestor root)) (v.child root name) n =
              .broken (.loop a.path (v.child root name)) :=
            plainKind_eq_broken_iff.2 ⟨hn, rfl, .inr ⟨l', _, hc, rfl, a, hf, rfl⟩⟩
          exact (hok _ _ _ hv (.broken hg (kind_open.trans hk))).elim
    exact ⟨_, _, .entry hv hg hk rfl hc, rfl, rfl⟩

theorem not_cyclic (h : fs.look .follow root = .ok (r, d)) (hd : d.isDir = true) :
    ¬ Cyclic fs.tree r := by
  intro hcyc
  obtain ⟨ns, l, ms, hr, hms, hback⟩ := hcyc
  obtain ⟨ns', hlen, hl⟩ := hr.unbounded hms hback
    ((fs.tree.directories.length + 1) * fs.tree.directories.length)
  obtain ⟨v, up, hv, rfl, rfl⟩ := visited_of_linkedDir hok h hd hl
  -- There are paths of any length along a cycle, but ways are bounded.
  have hle := hv.length_le_directories
  have hn := hv.length_names
  simp only [List.length_cons] at hle
  omega

end NoFault

end Walk

end ResourceManifest
