import ResourceManifest.FileTree.Resolve
import ResourceManifest.Proofs.FileTree.Order
import ResourceManifest.Proofs.FileTree.Update

set_option autoImplicit false

namespace ResourceManifest

namespace Node

def blank : Node → Node
  | .file mode _ => .file mode []
  | n => n

variable {n n' : Node}

theorem isDir_eq_of_blank (h : n.blank = n'.blank) : n.isDir = n'.isDir := by
  cases n <;> cases n' <;> simp_all [blank, isDir]

theorem isFile_eq_of_blank (h : n.blank = n'.blank) : n.isFile = n'.isFile := by
  cases n <;> cases n' <;> simp_all [blank, isFile]

theorem mode_eq_of_blank (h : n.blank = n'.blank) : n.mode = n'.mode := by
  cases n <;> cases n' <;> simp_all [blank, mode]

theorem eq_or_file_of_blank (h : n.blank = n'.blank) :
    n = n' ∨ ∃ mode c c', n = .file mode c ∧ n' = .file mode c' := by
  cases n with
  | file mode c =>
    cases n' with
    | file mode' c' =>
      obtain rfl : mode = mode' := by simpa [blank] using h
      exact .inr ⟨mode, c, c', rfl, rfl⟩
    | _ => simp [blank] at h
  | _ => cases n' <;> simp_all [blank]

end Node

namespace FileTree

def SameShape (t t' : FileTree) : Prop :=
  ∀ l, (t.get? l).map Node.blank = (t'.get? l).map Node.blank

variable {t t' : FileTree} {l : Location} {n n' : Node}

namespace SameShape

theorem refl (t : FileTree) : SameShape t t := fun _ => rfl

theorem trans {t'' : FileTree} (h : SameShape t t') (h' : SameShape t' t'') : SameShape t t'' :=
  fun l => (h l).trans (h' l)

theorem get?_cases (h : SameShape t t') (l : Location) :
    (t.get? l = none ∧ t'.get? l = none) ∨
    ∃ n n', t.get? l = some n ∧ t'.get? l = some n' ∧ n.blank = n'.blank := by
  have hl := h l
  cases hg : t.get? l with
  | none =>
    cases hg' : t'.get? l with
    | none => exact .inl ⟨rfl, rfl⟩
    | some n' => simp [hg, hg'] at hl
  | some n =>
    cases hg' : t'.get? l with
    | none => simp [hg, hg'] at hl
    | some n' => exact .inr ⟨n, n', rfl, rfl, by simpa [hg, hg'] using hl⟩

theorem exists_get?_iff (h : SameShape t t') (l : Location) :
    (∃ n, t.get? l = some n) ↔ ∃ n, t'.get? l = some n := by
  rcases h.get?_cases l with ⟨hg, hg'⟩ | ⟨n, n', hg, hg', -⟩
  · simp [hg, hg']
  · simp [hg, hg']

theorem isDir (h : SameShape t t') (l : Location) : t.isDir l = t'.isDir l := by
  rcases h.get?_cases l with ⟨hg, hg'⟩ | ⟨n, n', hg, hg', hn⟩
  · rw [FileTree.isDir, FileTree.isDir, hg, hg']
  · rw [isDir_of_get? hg, isDir_of_get? hg', Node.isDir_eq_of_blank hn]

theorem names (h : SameShape t t') (l : Location) : t.names l = t'.names l :=
  names_eq_of_mem_iff fun n => by rw [mem_names_iff, mem_names_iff, h.exists_get?_iff]

theorem walkSteps (h : SameShape t t') (ending : Ending) (links : Nat)
    (onLink : Location → List Bytes → Except FileFault (Location × Nat)) (here : Location)
    (steps : List Bytes) :
    t.walkSteps ending links onLink here steps = t'.walkSteps ending links onLink here steps := by
  induction steps generalizing here with
  | nil => rfl
  | cons step rest ih =>
    unfold FileTree.walkSteps
    simp only [h.isDir here, ih]
    rcases h.get?_cases (step :: here) with ⟨hg, hg'⟩ | ⟨n, n', hg, hg', hn⟩
    · rw [hg, hg']
    · rcases Node.eq_or_file_of_blank hn with rfl | ⟨mode, c, c', rfl, rfl⟩
      · rw [hg, hg']
      · rw [hg, hg']
        rfl

theorem walk (h : SameShape t t') (ending : Ending) (links : Nat) :
    t.walk ending links = t'.walk ending links := by
  induction links with
  | zero =>
    funext here steps
    exact h.walkSteps _ _ _ _ _
  | succ links ih =>
    funext here steps
    unfold FileTree.walk
    rw [ih]
    exact h.walkSteps _ _ _ _ _

theorem resolve (h : SameShape t t') (cwd : Location) (ending : Ending) (p : Path) :
    t.resolve cwd ending p = t'.resolve cwd ending p := by
  rw [FileTree.resolve, FileTree.resolve, h.walk]

theorem resolveEntry (h : SameShape t t') (cwd : Location) (p : Path) :
    t.resolveEntry cwd p = t'.resolveEntry cwd p := by
  unfold FileTree.resolveEntry
  rw [h.walk]

end SameShape

theorem isEmptyAt_iff : t.isEmptyAt l = true ↔ ∀ name, t.get? (name :: l) = none := by
  unfold isEmptyAt
  rw [List.all_eq_true]
  constructor
  · intro h name
    refine Option.eq_none_iff_forall_ne_some.2 fun n hn => ?_
    simpa using h _ (get?_cons_eq_some_iff.1 hn)
  · intro h e he
    obtain ⟨l', n⟩ := e
    cases l' with
    | nil => exact absurd rfl (t.named _ he).1
    | cons name l' =>
      refine bne_iff_ne.2 fun hl => ?_
      obtain rfl : l' = l := hl
      have hn := get?_cons_eq_some_iff.2 he
      rw [h name] at hn
      cases hn

/-- A node can be put at a location: names that entries may have, in a directory, and no directory
in use unless the node is one. -/
def Takes (t : FileTree) (l : Location) (n : Node) : Prop :=
  (l ≠ [] ∧ l.all isEntryName = true) ∧
    t.isDir l.tail = true ∧ (n.isDir = true ∨ t.isEmptyAt l = true)

theorem put_of_not_takes (h : ¬ t.Takes l n) : t.put l n = t := dif_neg h

theorem get?_put_of_takes (h : t.Takes l n) (l' : Location) :
    (t.put l n).get? l' = if l' = l then some n else t.get? l' := by
  have hnodes : (t.put l n).nodes = (l, n) :: t.nodes.filter (·.1 != l) := by
    unfold Takes at h
    rw [put, dif_pos h]
  cases l' with
  | nil => rw [get?_nil, if_neg (Ne.symm h.1.1), get?_nil]
  | cons a l' =>
    refine Option.ext fun d => ?_
    rw [get?_cons_eq_some_iff, hnodes]
    by_cases hl : a :: l' = l
    · simp [hl, eq_comm]
    · simp [hl, get?_cons_eq_some_iff]

theorem get?_erase (t : FileTree) (l l' : Location) :
    (t.erase l).get? l' = if l <:+ l' ∧ l' ≠ [] then none else t.get? l' := by
  cases l' with
  | nil => simp
  | cons a l' =>
    refine Option.ext fun d => ?_
    have hnodes : (t.erase l).nodes = t.nodes.filter fun e => !l.isSuffixOf e.1 := rfl
    rw [get?_cons_eq_some_iff, hnodes]
    by_cases hl : l <:+ a :: l'
    · simp [hl]
    · have hs : l.isSuffixOf (a :: l') = false := by
        rwa [Bool.eq_false_iff, ne_eq, List.isSuffixOf_iff_suffix]
      simp [hl, hs, get?_cons_eq_some_iff]

namespace SameShape

theorem isEmptyAt (h : SameShape t t') (l : Location) : t.isEmptyAt l = t'.isEmptyAt l := by
  rw [Bool.eq_iff_iff, isEmptyAt_iff, isEmptyAt_iff]
  refine forall_congr' fun name => ?_
  rcases h.get?_cases (name :: l) with ⟨hg, hg'⟩ | ⟨n, n', hg, hg', -⟩
  · simp [hg, hg']
  · simp [hg, hg']

theorem takes_iff (h : SameShape t t') (hn : n.blank = n'.blank) :
    t.Takes l n ↔ t'.Takes l n' := by
  rw [Takes, Takes, h.isDir, h.isEmptyAt, Node.isDir_eq_of_blank hn]

theorem put (h : SameShape t t') (l : Location) (hn : n.blank = n'.blank) :
    SameShape (t.put l n) (t'.put l n') := by
  by_cases ht : t.Takes l n
  · intro l'
    rw [get?_put_of_takes ht, get?_put_of_takes ((h.takes_iff hn).1 ht)]
    split
    · exact congrArg some hn
    · exact h l'
  · rwa [put_of_not_takes ht, put_of_not_takes fun ht' => ht ((h.takes_iff hn).2 ht')]

theorem erase (h : SameShape t t') (l : Location) : SameShape (t.erase l) (t'.erase l) := by
  intro l'
  rw [get?_erase, get?_erase]
  split
  · rfl
  · exact h l'

end SameShape

end FileTree

end ResourceManifest
