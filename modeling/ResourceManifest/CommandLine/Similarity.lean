import ResourceManifest.Number.Binary64

/-!
How alike two words are, after Jaro: the share of characters that match within a window, less
half of those that match out of order. Each step is rounded as 64-bit arithmetic rounds it.
-/

set_option autoImplicit false

namespace ResourceManifest

namespace Binary64

def ratio (x : Binary64) : Nat × Nat := scaled x.mantissa 1 (-x.exponent)

def ofRatio (num den : Nat) : Binary64 := (nearest? num den).getD ⟨0, leastExponent⟩

def add (x y : Binary64) : Binary64 :=
  let (a, b) := x.ratio
  let (c, d) := y.ratio
  ofRatio (a * d + c * b) (b * d)

def divNat (x : Binary64) (n : Nat) : Binary64 :=
  let (a, b) := x.ratio
  ofRatio a (b * n)

def lt (x y : Binary64) : Bool :=
  let (a, b) := x.ratio
  let (c, d) := y.ratio
  a * d < c * b

end Binary64

namespace Similarity

/-- Marks the first unmarked place of `b` from `low` up to before `high` that holds `x`. -/
def markFirst (x : Char) (low high : Nat) : Nat → List (Char × Bool) → Option (List (Char × Bool))
  | _, [] => none
  | j, (y, taken) :: r =>
    if high ≤ j then none
    else if low ≤ j ∧ x = y ∧ !taken then some ((y, true) :: r)
    else (markFirst x low high (j + 1) r).map ((y, taken) :: ·)

/-- The characters of the first word that find a match, and the marked second word. -/
def matching (range : Nat) : Nat → List Char → List (Char × Bool) → List Char × List (Char × Bool)
  | _, [], b => ([], b)
  | i, x :: r, b =>
    match markFirst x (i - range) (i + range + 1) 0 b with
    | some b =>
      let (xs, b) := matching range (i + 1) r b
      (x :: xs, b)
    | none => matching range (i + 1) r b

def jaro (a b : List Char) : Binary64 :=
  if a = [] ∧ b = [] then .ofRatio 1 1
  else
    let range := max a.length b.length / 2 - 1
    let (xs, marked) := matching range 0 a (b.map (·, false))
    let ys := (marked.filter (·.2)).map (·.1)
    let outOfOrder := ((xs.zip ys).filter fun p => p.1 ≠ p.2).length / 2
    let n := xs.length
    if n = 0 then .ofRatio 0 1
    else
      (((Binary64.ofRatio n a.length).add (.ofRatio n b.length)).add
        (.ofRatio (n - outOfOrder) n)).divNat 3

def threshold : Binary64 := .ofRatio 7 10

/-- The candidate most like `word`, the last one of equals, if it is alike enough. -/
def closest? {α : Type} (word : String) (name : α → String) (candidates : List α) : Option α :=
  (candidates.foldl (fun best? c =>
    let s := jaro word.toList (name c).toList
    if !threshold.lt s then best?
    else match best? with
      | some (t, b) => if s.lt t then some (t, b) else some (s, c)
      | none => some (s, c)) (none : Option (Binary64 × α))).map (·.2)

end Similarity

end ResourceManifest
