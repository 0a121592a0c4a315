import ResourceManifest.Text.Utf8

/-!
Patterns for paths. Wildcards stop at slashes, except that two stars between slashes stand for any
number of directories. A pattern is matched against the bytes of a path, all places at once: a
mask says at which places of the path the part of the pattern read so far may end.
-/

set_option autoImplicit false

namespace ResourceManifest

inductive GlobProblem where
  | unclosedAlternates | unopenedAlternates | danglingEscape
  | invalidRange (first last : Char)
  deriving DecidableEq, Repr

def GlobProblem.text : GlobProblem → String
  | .unclosedAlternates =>
    "unclosed alternate group; missing '\x7d' (maybe escape '\x7b' with '[\x7b]'?)"
  | .unopenedAlternates =>
    "unopened alternate group; missing '\x7b' (maybe escape '\x7d' with '[\x7d]'?)"
  | .danglingEscape => "dangling '\\'"
  | .invalidRange a b =>
    "invalid range; '" ++ String.ofList [a] ++ "' > '" ++ String.ofList [b] ++ "'"

inductive GlobToken where
  | char (c : Char)
  /-- One byte that is no slash. -/
  | any
  /-- Any bytes that are no slashes. -/
  | star
  /-- Any directories at the beginning of a path. -/
  | leading
  /-- Everything below a directory. -/
  | trailing
  /-- A slash, or any directories between two. -/
  | between
  /-- A byte in one of the ranges, or in none of them. -/
  | set (negated : Bool) (ranges : List (Char × Char))
  /-- One of several patterns; of no patterns it is the empty one. -/
  | choice (alternatives : List (List GlobToken))
  deriving Repr

abbrev Glob := List GlobToken

namespace Glob

/-- A pattern being read: the alternatives of each group that is open, innermost first, and the
tokens of the present alternative in reverse. -/
structure Reading where
  tokens : List GlobToken := []
  /-- The alternatives before this one, in reverse, and the tokens in front of the group. -/
  groups : List (List Glob × List GlobToken) := []
  before : Option Char := none
  /-- Whether a bracket was found that nothing closes; then all brackets are plain. -/
  unclosedSet : Bool := false

namespace Reading

def push (s : Reading) (t : GlobToken) : Reading := { s with tokens := t :: s.tokens }

def isVoid : GlobToken → Bool
  | .choice [] => true
  | _ => false

def openGroup (s : Reading) : Reading :=
  { s with groups := ([], s.tokens) :: s.groups, tokens := [] }

def addAlternative (tokens : List GlobToken) (alternatives : List Glob) : List Glob :=
  if tokens.all isVoid then alternatives else tokens.reverse :: alternatives

def nextAlternative (s : Reading) : Reading :=
  match s.groups with
  | (alternatives, front) :: gs =>
    { s with groups := (addAlternative s.tokens alternatives, front) :: gs, tokens := [] }
  | [] => s.push (.char ',')

def closeGroup (s : Reading) : Except GlobProblem Reading :=
  match s.groups with
  | (alternatives, front) :: gs =>
    .ok { s with
      groups := gs
      tokens := .choice (addAlternative s.tokens alternatives).reverse :: front }
  | [] => .error .unopenedAlternates

def stars (s : Reading) (next : Option Char) : Reading × Bool :=
  let plain := (s.push .star).push .star
  let atSlash := next = some '/'
  let inGroup := !s.groups.isEmpty
  let startsPart := s.before = some '/' ∨
    (inGroup ∧ (s.before = some ',' ∨ s.before = some '\x7b'))
  match s.tokens with
  | [] => if next = none ∨ atSlash then (s.push .leading, atSlash) else (plain, false)
  | last :: more =>
    if !startsPart then (plain, false)
    else
      let isTrailing := next = none ∨ (inGroup ∧ (next = some ',' ∨ next = some '\x7d'))
      if !isTrailing ∧ !atSlash then (plain, false)
      else
        let merged := match last with
          | .leading => .leading
          | .trailing => .trailing
          | _ => if isTrailing then .trailing else .between
        ({ s with tokens := merged :: more }, atSlash)

end Reading

/-- A set being read: its ranges in reverse, and whether the last one waits for its end. -/
structure SetReading where
  ranges : List (Char × Char) := []
  inRange : Bool := false
  isFirst : Bool := true

def extendRange (ranges : List (Char × Char)) (c : Char) : Except GlobProblem (List (Char × Char)) :=
  match ranges with
  | (a, _) :: more => if c < a then .error (.invalidRange a c) else .ok ((a, c) :: more)
  | [] => .ok [(c, c)]

/-- The ranges up to the bracket that closes a set, and what follows; nothing if none does. -/
def readSet : List Char → SetReading →
    Except GlobProblem (Option (List (Char × Char) × List Char))
  | [], _ => .ok none
  | c :: r, s =>
    if c = ']' ∧ !s.isFirst then
      .ok (some ((if s.inRange then ('-', '-') :: s.ranges else s.ranges).reverse, r))
    else if c = '-' ∧ !s.isFirst ∧ !s.inRange then
      readSet r { s with inRange := true }
    else if s.inRange then do
      let ranges ← extendRange s.ranges c
      readSet r ⟨ranges, false, false⟩
    else readSet r ⟨(c, c) :: s.ranges, false, false⟩

def read : Nat → List Char → Reading → Except GlobProblem Reading
  | 0, _, s => .ok s
  | _ + 1, [], s => .ok s
  | fuel + 1, c :: r, s => do
    let go := fun (s : Reading) => read fuel r { s with before := some c }
    if c = '?' then go (s.push .any)
    else if c = '*' then
      match r with
      | '*' :: r₂ =>
        let (s, slash) := s.stars r₂.head?
        if slash then read fuel (r₂.drop 1) { s with before := some '/' }
        else read fuel r₂ { s with before := some '*' }
      | _ => go (s.push .star)
    else if c = '[' ∧ !s.unclosedSet then
      let negated := r.head? = some '!' ∨ r.head? = some '^'
      match ← readSet (if negated then r.drop 1 else r) {} with
      | some (ranges, r₂) => read fuel r₂ { s.push (.set negated ranges) with before := some ']' }
      | none => go { s.push (.char '[') with unclosedSet := true }
    else if c = '\x7b' then go s.openGroup
    else if c = '\x7d' then go (← s.closeGroup)
    else if c = ',' then go s.nextAlternative
    else if c = '\\' then
      match r with
      | [] => .error .danglingEscape
      | e :: r₂ => read fuel r₂ { s.push (.char e) with before := some e }
    else go (s.push (.char c))

def parse (s : String) : Except GlobProblem Glob := do
  let r ← read (s.length + 1) s.toList {}
  if r.groups.isEmpty then .ok r.tokens.reverse else .error .unclosedAlternates

/-- For each place of a path, before its first byte and behind every byte, whether a match may
end there. -/
abbrev Mask := List Bool

def step (p : UInt8 → Bool) (path : Bytes) (m : Mask) : Mask :=
  false :: List.zipWith (fun b x => x && p b) path m

def steps (p : UInt8 → Bool) : Bytes → Mask → Mask
  | b :: bs, x :: y :: m => x :: steps p bs ((y || (x && p b)) :: m)
  | _, m => m

def union (m n : Mask) : Mask := List.zipWith (· || ·) m n

def isSlash (b : UInt8) : Bool := b == 0x2F

/-- The bytes of a set: the ends of a range are spelled out, and the last byte of the first end
and the first byte of the last end bound it. -/
def rangeHolds (b : UInt8) (r : Char × Char) : Bool :=
  let first := Utf8.encodeChars [r.1]
  let last := Utf8.encodeChars [r.2]
  first.contains b || last.contains b ||
    (r.1 != r.2 && first.getLastD 0 ≤ b && b ≤ last.headD 0)

mutual
def GlobToken.apply (path : Bytes) : GlobToken → Mask → Mask
  | .char c, m => (Utf8.encodeChars [c]).foldl (fun m b => step (· == b) path m) m
  | .any, m => step (!isSlash ·) path m
  | .star, m => steps (!isSlash ·) path m
  | .leading, m => union m (step isSlash path (steps (fun _ => true) path m))
  | .trailing, m => steps (fun _ => true) path (step isSlash path m)
  | .between, m =>
    let slash := step isSlash path m
    union slash (step isSlash path (steps (fun _ => true) path slash))
  | .set negated ranges, m => step (fun b => ranges.any (rangeHolds b) != negated) path m
  | .choice [], m => m
  | .choice (g :: gs), m => union (apply path g m) (applyAny path gs m)

def apply (path : Bytes) : Glob → Mask → Mask
  | [], m => m
  | t :: ts, m => apply path ts (GlobToken.apply path t m)

def applyAny (path : Bytes) : List Glob → Mask → Mask
  | [], m => m.map fun _ => false
  | g :: gs, m => union (apply path g m) (applyAny path gs m)
end

def holds (g : Glob) (path : Bytes) : Bool :=
  match g with
  | [.leading] => true
  | g => (apply path g (true :: path.map fun _ => false)).getLastD false

end Glob

end ResourceManifest
