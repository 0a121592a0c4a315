import ResourceManifest.Proofs.FileTree.Leads

set_option autoImplicit false

namespace ResourceManifest.FileSystem

variable {fs : FileSystem} {p : Path} {l : Location} {n : Name}

def start (fs : FileSystem) (p : Path) : Location := if p.isAbsolute then [] else fs.cwd

theorem start_congr {fs fs' : FileSystem} (h : fs'.cwd = fs.cwd) (p : Path) :
    fs'.start p = fs.start p := by
  rw [start, start, h]

/-- The path leads to a location, and it is a path that the system takes: not empty, without a
zero byte, shorter than its limit, and over no more links than it follows. -/
def Reaches (fs : FileSystem) (p : Path) (l : Location) : Prop :=
  0 ∉ p.bytes ∧ p.bytes ≠ [] ∧ p.bytes.length < pathLimit ∧
    ∃ k, k ≤ linkLimit ∧ Leads fs.tree k (fs.start p) p.steps l

theorem checkPath_eq_ok_iff :
    FileTree.checkPath p = .ok () ↔ 0 ∉ p.bytes ∧ p.bytes ≠ [] ∧ p.bytes.length < pathLimit := by
  unfold FileTree.checkPath
  by_cases h₀ : 0 ∈ p.bytes
  · simp [h₀]
  · by_cases h₁ : p.bytes = []
    · simp [h₁]
    · by_cases h₂ : pathLimit ≤ p.bytes.length
      · simp [h₀, h₁, h₂]
      · simp [h₀, h₁, h₂]
        omega

theorem locate_eq_ok_iff {ending : Ending} : fs.locate ending p = .ok l ↔
    FileTree.checkPath p = .ok () ∧
      ∃ left, fs.tree.walk ending linkLimit (fs.start p) p.steps = .ok (l, left) := by
  unfold locate FileTree.resolve start
  cases hc : FileTree.checkPath p with
  | error f => simp [bind, Except.bind]
  | ok u =>
    simp only [bind, Except.bind, true_and]
    cases hw : fs.tree.walk ending linkLimit (if p.isAbsolute then [] else fs.cwd) p.steps with
    | error f => simp
    | ok r => simp [Prod.ext_iff]

theorem locate_follow_eq_ok_iff : fs.locate .follow p = .ok l ↔ fs.Reaches p l := by
  rw [locate_eq_ok_iff, checkPath_eq_ok_iff, Reaches, and_assoc, and_assoc]
  refine and_congr_right fun _ => and_congr_right fun _ => and_congr_right fun _ => ?_
  constructor
  · intro hx
    obtain ⟨left, hw⟩ := hx
    obtain ⟨k, hl, hk⟩ := FileTree.walk_follow_eq_ok_iff.1 hw
    exact ⟨k, by omega, hl⟩
  · intro hx
    obtain ⟨k, hk, hl⟩ := hx
    have hw := FileTree.walk_follow_of_leads (linkLimit - k) hl
    rw [Nat.sub_add_cancel hk] at hw
    exact ⟨linkLimit - k, hw⟩

theorem look_eq_ok_iff {ending : Ending} {d : Node} :
    fs.look ending p = .ok (l, d) ↔ fs.locate ending p = .ok l ∧ fs.tree.get? l = some d := by
  unfold look
  cases hl : fs.locate ending p with
  | error f => simp [bind, Except.bind]
  | ok l' =>
    simp only [bind, Except.bind, Except.ok.injEq]
    cases hg : fs.tree.get? l' with
    | none =>
      simp only [reduceCtorEq, false_iff, not_and]
      rintro rfl
      simp [hg]
    | some d' =>
      simp only [Except.ok.injEq, Prod.mk.injEq]
      constructor
      · intro hx
        obtain ⟨rfl, rfl⟩ := hx
        exact ⟨rfl, hg⟩
      · intro hx
        obtain ⟨rfl, hd⟩ := hx
        rw [hg] at hd
        exact ⟨rfl, Option.some.inj hd⟩

theorem look_follow_eq_ok_iff {d : Node} :
    fs.look .follow p = .ok (l, d) ↔ fs.Reaches p l ∧ fs.tree.get? l = some d := by
  rw [look_eq_ok_iff, locate_follow_eq_ok_iff]

theorem stat_eq_ok_iff {d : Node} : fs.stat p = .ok d ↔ ∃ l, fs.look .follow p = .ok (l, d) := by
  unfold stat
  cases h : fs.look .follow p with
  | error f => simp [Except.map]
  | ok r => simp [Except.map, Prod.ext_iff]

namespace Reaches

theorem deterministic {l' : Location} (h : fs.Reaches p l) (h' : fs.Reaches p l') : l = l' := by
  obtain ⟨-, -, -, k, -, hl⟩ := h
  obtain ⟨-, -, -, k', -, hl'⟩ := h'
  exact (hl.deterministic hl').1

theorem bytes_ne_nil (h : fs.Reaches p l) : p.bytes ≠ [] := h.2.1

theorem length_lt (h : fs.Reaches p l) : p.bytes.length < pathLimit := h.2.2.1

theorem look_keep {d : Node} (h : fs.Reaches p l) (hd : fs.tree.get? l = some d) :
    ∃ r, fs.look .keep p = .ok r := by
  obtain ⟨h₀, h₁, h₂, k, hk, hl⟩ := h
  have hc := checkPath_eq_ok_iff.2 ⟨h₀, h₁, h₂⟩
  have he : Ending.keep ≠ .create := by simp
  have hw := FileTree.walk_of_leads he (linkLimit - k) hl
  rw [Nat.sub_add_cancel hk, start] at hw
  have hloc : ∀ l' left, fs.tree.walk .keep linkLimit (if p.isAbsolute then [] else fs.cwd)
      p.steps = .ok (l', left) → fs.locate .keep p = .ok l' := by
    intro l' left hw
    exact locate_eq_ok_iff.2 ⟨hc, left, hw⟩
  rcases hw with hw | ⟨-, l', left', target, hw, hg⟩
  · exact ⟨(l, d), look_eq_ok_iff.2 ⟨hloc _ _ hw, hd⟩⟩
  · exact ⟨(l', .link target), look_eq_ok_iff.2 ⟨hloc _ _ hw, hg⟩⟩

theorem leads_names (h : fs.Reaches p l) :
    ∃ k, k ≤ linkLimit ∧ Leads fs.tree k (fs.start p) p.names l := by
  obtain ⟨-, -, -, k, hk, hl⟩ := h
  rcases p.steps_eq with hs | hs
  · exact ⟨k, hk, hs ▸ hl⟩
  · rw [hs] at hl
    exact ⟨k, hk, hl.of_slash_end⟩

theorem start_join (h : fs.Reaches p l) (n : Name) : fs.start (p.join n) = fs.start p := by
  rw [start, start, Path.isAbsolute_join n h.bytes_ne_nil]

theorem join {d : Node} (h : fs.Reaches p l) (hg : fs.tree.get? (n :: l) = some d)
    (hd : d.isLink = false) (hlen : (p.join n).bytes.length < pathLimit) :
    fs.Reaches (p.join n) (n :: l) := by
  obtain ⟨hn, -, -, hs, h₀, -⟩ := isEntryName_iff.1 (FileTree.isEntryName_of_get? hg)
  obtain ⟨k, hk, hl⟩ := h.leads_names
  refine ⟨Path.nul_notMem_join h.1 h₀, Path.join_bytes_ne_nil h.bytes_ne_nil, hlen, k, hk, ?_⟩
  rw [h.start_join, Path.steps_join h.bytes_ne_nil hn hs]
  exact hl.append (Leads.of_get? hg hd)

theorem leads_of_join {l' : Location} (h : fs.Reaches p l) (hn : isEntryName n = true)
    (h' : fs.Reaches (p.join n) l') : ∃ k, k ≤ linkLimit ∧ Leads fs.tree k l [n] l' := by
  obtain ⟨hne, -, -, hs, -, -⟩ := isEntryName_iff.1 hn
  obtain ⟨k, -, hl⟩ := h.leads_names
  obtain ⟨-, -, -, k', hk', hl'⟩ := h'
  rw [h.start_join, Path.steps_join h.bytes_ne_nil hne hs] at hl'
  obtain ⟨m, i, j, hi, hj, hij⟩ := hl'.split rfl
  obtain rfl := (hl.deterministic hi).1
  exact ⟨j, by omega, hj⟩

theorem isLink {d : Node} (h : fs.Reaches p l) (hd : fs.tree.get? l = some d) : d.isLink = false := by
  obtain ⟨k, -, hl⟩ := h.leads_names
  by_cases hnil : p.names = []
  · rw [hnil] at hl
    cases hl
    -- A path without a name on it is one of slashes only.
    have ha : p.isAbsolute = true := by
      cases ha : p.isAbsolute with
      | true => rfl
      | false => exact absurd hnil (Path.names_ne_nil h.bytes_ne_nil ha)
    refine Leads.isLink_of_isDir ?_ hd
    rw [start, ha]
    exact FileTree.isDir_nil _
  · exact hl.isLink hnil hd

end Reaches

theorem look_of_too_long {ending : Ending} (h₀ : 0 ∉ p.bytes)
    (hlen : pathLimit ≤ p.bytes.length) : fs.look ending p = .error .nameTooLong := by
  have hne : p.bytes ≠ [] := by
    intro hp
    simp [hp, pathLimit] at hlen
  simp [look, locate, FileTree.resolve, FileTree.checkPath, h₀, hne, hlen, bind, Except.bind]

theorem too_long_of_look_join {d : Node} {f : FileFault} (h : fs.Reaches p l)
    (hg : fs.tree.get? (n :: l) = some d) (hd : d.isLink = false)
    (hl : fs.look .follow (p.join n) = .error f) :
    pathLimit ≤ (p.join n).bytes.length ∧ f = .nameTooLong := by
  have hlong : pathLimit ≤ (p.join n).bytes.length := by
    refine Nat.le_of_not_lt fun hlt => ?_
    have hok := look_follow_eq_ok_iff.2 ⟨h.join hg hd hlt, hg⟩
    rw [hl] at hok
    cases hok
  obtain ⟨-, -, -, -, h₀, -⟩ := isEntryName_iff.1 (FileTree.isEntryName_of_get? hg)
  have hf : fs.look .follow (p.join n) = .error .nameTooLong :=
    look_of_too_long (Path.nul_notMem_join h.1 h₀) hlong
  rw [hl] at hf
  cases hf
  exact ⟨hlong, rfl⟩

def dotted (k : Nat) : Path := ⟨(List.replicate k [Path.dot, Path.slash]).flatten⟩

theorem segments_dotted (k : Nat) :
    Path.segments (dotted k).bytes = List.replicate k [Path.dot] ++ [[]] := by
  induction k with
  | zero => rfl
  | succ k ih =>
    have hb : (dotted (k + 1)).bytes = [Path.dot] ++ Path.slash :: (dotted k).bytes := by
      simp [dotted, List.replicate_succ]
    rw [hb, Path.segments_append_slash, ih]
    rfl

theorem names_dotted (k : Nat) : (dotted k).names = List.replicate k [Path.dot] := by
  simp [Path.names, segments_dotted]

theorem length_dotted (k : Nat) : (dotted k).bytes.length = 2 * k := by
  simp [dotted, Nat.mul_comm]

theorem leads_dots {t : FileTree} {l : Location} (hl : t.isDir l = true) (k : Nat) :
    Leads t 0 l (List.replicate k [Path.dot]) l := by
  induction k with
  | zero => exact .done
  | succ k ih => exact .stay hl (.inr rfl) ih

theorem reaches_dotted {k : Nat} (hk : 0 < k) (hlen : 2 * k < pathLimit)
    (hl : fs.tree.isDir fs.cwd = true) : fs.Reaches (dotted k) fs.cwd := by
  have hb : ∀ b ∈ (dotted k).bytes, b = Path.dot ∨ b = Path.slash := by
    intro b hm
    simp only [dotted, List.mem_flatten, List.mem_replicate] at hm
    obtain ⟨_, ⟨-, rfl⟩, hm⟩ := hm
    simpa using hm
  have h₀ : 0 ∉ (dotted k).bytes := by
    intro h
    rcases hb 0 h with h | h <;> exact absurd h (by decide)
  have hne : (dotted k).bytes ≠ [] := by
    intro h
    have hl := length_dotted k
    rw [h] at hl
    simp only [List.length_nil] at hl
    omega
  have hstart : fs.start (dotted k) = fs.cwd := by
    cases k with
    | zero => omega
    | succ k =>
      have ha : (dotted (k + 1)).isAbsolute = false := rfl
      rw [start, ha]
      rfl
  refine ⟨h₀, hne, by rwa [length_dotted], 0, by omega, ?_⟩
  rw [hstart]
  rcases (dotted k).steps_eq with hs | hs
  · rw [hs, names_dotted]
    exact leads_dots hl k
  · rw [hs, names_dotted]
    exact (leads_dots hl k).append (.stay hl (.inl rfl) .done)

end ResourceManifest.FileSystem
