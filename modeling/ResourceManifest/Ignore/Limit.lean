import ResourceManifest.Ignore.Glob

/-!
How many patterns, and which, one matcher takes. Each pattern becomes an expression, and those of
one file are put together; an expression that nests too deep spoils them all.
-/

set_option autoImplicit false

namespace ResourceManifest

/-- Why a matcher does not take some patterns together, if it does not. It always takes none, and
what it takes together it takes in part. -/
structure PatternLimit where
  refusal? : List Glob → Option String
  empty : refusal? [] = none
  sublist : ∀ {gs gs' : List Glob}, gs.Sublist gs' → refusal? gs' = none → refusal? gs = none

def nestingLimit : Nat := 250

def GlobToken.width : GlobToken → Nat
  | .char c => (Utf8.encodeChars [c]).length
  | .trailing => 2
  | .choice [] => 0
  | _ => 1

def GlobToken.isChar : GlobToken → Bool
  | .char _ => true
  | _ => false

namespace Glob

mutual
def GlobToken.nesting : GlobToken → Nat
  | .char _ => 0
  | .any => 1
  | .star => 2
  | .leading => 4
  | .trailing => 1
  | .between => 4
  | .set _ [(a, b)] => if a.toNat < 0x80 ∧ b.toNat < 0x80 then 1 else 2
  | .set _ _ => 2
  | .choice gs => min gs.length 2 + choiceNesting gs

def deepest : Glob → Nat
  | [] => 0
  | t :: ts => max (GlobToken.nesting t) (deepest ts)

def choiceNesting : List Glob → Nat
  | [] => 0
  | g :: gs =>
    max ((if (g.map GlobToken.width).sum ≤ 1 then 0 else 1) + deepest g) (choiceNesting gs)
end

def nesting (g : Glob) : Nat := deepest g + 1

def asksForEnding (g : Glob) : Bool :=
  match g.reverse.dropWhile fun | .char c => c != '.' && c != '/' | _ => false with
  | .char '.' :: _ => true
  | _ => false

def isText (g : Glob) : Bool :=
  match g with
  | .leading :: t :: ts => (t :: ts).all GlobToken.isChar
  | g => !g.isEmpty && g.all GlobToken.isChar ||
    g.getLast?.any (fun | .trailing => true | _ => false) && g.dropLast.all GlobToken.isChar

end Glob

namespace PatternLimit

def isTooDeep (g : Glob) : Bool := nestingLimit < g.nesting

/-- The number of the pattern that is at fault. Each one with an ending is taken by itself, before
the others. -/
def firstTooDeep? (gs : List Glob) : Option Nat :=
  if gs.any fun g => g.asksForEnding && isTooDeep g then some 0
  else (gs.filter fun g => !g.asksForEnding && !g.isText).findIdx? isTooDeep

theorem firstTooDeep?_eq_none_iff {gs : List Glob} : firstTooDeep? gs = none ↔
    ∀ g ∈ gs, isTooDeep g = true → g.asksForEnding = false ∧ g.isText = true := by
  have hend : (gs.any fun g => g.asksForEnding && isTooDeep g) = false ↔
      ∀ g ∈ gs, g.asksForEnding = true → isTooDeep g = false := by
    simp
  have hrest : (gs.filter fun g => !g.asksForEnding && !g.isText).findIdx? isTooDeep = none ↔
      ∀ g ∈ gs, g.asksForEnding = false → g.isText = false → isTooDeep g = false := by
    simp
  unfold firstTooDeep?
  constructor
  · intro h g hg hdeep
    cases hany : gs.any fun g => g.asksForEnding && isTooDeep g with
    | true => simp [hany] at h
    | false =>
      simp only [hany, Bool.false_eq_true, if_false] at h
      have he := hend.1 hany g hg
      have hr := hrest.1 h g hg
      rw [hdeep] at he hr
      cases ha : g.asksForEnding <;> cases ht : g.isText <;> simp_all
  · intro h
    have hnone : (gs.any fun g => g.asksForEnding && isTooDeep g) = false := by
      refine hend.2 fun g hg ha => ?_
      cases hd : isTooDeep g with
      | false => rfl
      | true => exact absurd ha (by simp [(h g hg hd).1])
    simp only [hnone, Bool.false_eq_true, if_false]
    refine hrest.2 fun g hg _ ht => ?_
    cases hd : isTooDeep g with
    | false => rfl
    | true => exact absurd ht (by simp [(h g hg hd).2])

def nesting : PatternLimit where
  refusal? gs := (firstTooDeep? gs).map fun i => "error parsing pattern " ++ i.repr
  empty := rfl
  sublist hsub h := by
    rw [Option.map_eq_none_iff, firstTooDeep?_eq_none_iff] at h ⊢
    exact fun g hg => h g (hsub.subset hg)

end PatternLimit

end ResourceManifest
