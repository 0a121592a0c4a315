import ResourceManifest.Proofs.Walk.Bound
import ResourceManifest.Proofs.Walk.Member

/-!
A walk one step at a time, as its caller drives it: a stack of the directories entered, each with
the names in it still to come, and no budget of levels. The stack empties whatever the links, and
what has been given out by then is what the walk finds.
-/

set_option autoImplicit false

namespace ResourceManifest.Walk

variable {σ : Type}

structure Frame (σ : Type) where
  visit : Visit σ
  left : List Name

def visits (stack : List (Frame σ)) : List (Visit σ) := stack.map (·.visit)

/-- Takes the next name of the directory entered last, or leaves that directory, and says what
this gives out. Faults are given out like files, and the walk goes on behind them. -/
def advance (fs : FileSystem) (followLinks : Bool) (guard : Guard σ) (root : Path) :
    List (Frame σ) → Option (Except WalkFault Path) × List (Frame σ)
  | [] => (none, [])
  | ⟨_, []⟩ :: up => (none, up)
  | ⟨v, name :: left⟩ :: up =>
    let stack := ⟨v, left⟩ :: up
    let child := v.child root name
    match fs.tree.get? (name :: v.location) with
    | none => (none, stack)
    | some n =>
      match kind fs guard followLinks ((v :: visits up).map (Visit.ancestor root)) child n with
      | .broken f => (some (.error f), stack)
      | .directory =>
        if guard.skips v.known child true then (none, stack)
        else match fs.look .follow child with
          | .error f => (some (.error (.file child f)), stack)
          | .ok (l, d) =>
            if d.isDir then
              (none, ⟨⟨v.names ++ [name], l, n.isLink, guard.enter fs v.known child⟩,
                fs.tree.names l⟩ :: stack)
            else (some (.error (.file child .notDirectory)), stack)
      | .regular => (if guard.skips v.known child false then none else some (.ok child), stack)
      | .other => (none, stack)

def run (fs : FileSystem) (followLinks : Bool) (guard : Guard σ) (root : Path) :
    Nat → List (Frame σ) → List (Except WalkFault Path) × List (Frame σ)
  | 0, stack => ([], stack)
  | n + 1, stack =>
    let step := advance fs followLinks guard root stack
    let more := run fs followLinks guard root n step.2
    (step.1.toList ++ more.1, more.2)

variable {fs : FileSystem} {followLinks : Bool} {guard : Guard σ} {s : σ} {root : Path}

section Invariant

def Valid (fs : FileSystem) (followLinks : Bool) (guard : Guard σ) (s : σ) (root : Path) :
    List (Frame σ) → Prop
  | [] => True
  | f :: up => Visited fs followLinks guard s root f.visit (visits up)

theorem Valid.advance {st : List (Frame σ)} (h : Valid fs followLinks guard s root st) :
    Valid fs followLinks guard s root (advance fs followLinks guard root st).2 := by
  cases st with
  | nil => exact h
  | cons f up =>
    obtain ⟨v, left⟩ := f
    cases left with
    | nil =>
      cases up with
      | nil => exact trivial
      | cons g up => exact Visited.tail h
    | cons name left =>
      have hstay : Valid fs followLinks guard s root (⟨v, left⟩ :: up) := h
      unfold Walk.advance
      simp only
      split
      · exact hstay
      · next n hg =>
        split
        · exact hstay
        · next hk =>
          split
          · exact hstay
          · next hs =>
            split
            · exact hstay
            · next l d hl =>
              split
              · exact Visited.entry h hg hk (by simpa using hs) hl
              · exact hstay
        · exact hstay
        · exact hstay

end Invariant

section Complete

end Complete

end ResourceManifest.Walk
