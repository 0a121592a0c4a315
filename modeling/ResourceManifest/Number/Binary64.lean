/-!
Floating-point numbers of 64 bits as exact multiples of powers of two: the number nearest to a
fraction, and the shortest decimal that reads back as the same number.
-/

set_option autoImplicit false

namespace ResourceManifest

structure Binary64 where
  mantissa : Nat
  exponent : Int
  deriving DecidableEq, Repr

def roundDiv (num den : Nat) : Nat :=
  let q := num / den
  let r := num % den
  if 2 * r < den then q else if den < 2 * r then q + 1 else q + q % 2

namespace Binary64

def leastExponent : Int := -1074
def greatestExponent : Int := 971

def scaled (num den : Nat) (e : Int) : Nat × Nat :=
  if 0 ≤ e then (num, den * Nat.pow 2 e.toNat) else (num * Nat.pow 2 (-e).toNat, den)

def nearest? (num den : Nat) : Option Binary64 :=
  if num = 0 then some ⟨0, leastExponent⟩
  else
    let guess : Int := (num.log2 : Int) - (den.log2 : Int) - 53
    let fits := fun e => let f := scaled num den e; f.1 / f.2 < Nat.pow 2 53
    let e := max leastExponent (if fits guess then guess else guess + 1)
    let f := scaled num den e
    let m := roundDiv f.1 f.2
    let x : Binary64 := if m = Nat.pow 2 53 then ⟨Nat.pow 2 52, e + 1⟩ else ⟨m, e⟩
    if greatestExponent < x.exponent then none else some x

structure Decimal where
  digits : Nat
  exponent : Int
  deriving DecidableEq, Repr

def onGrid? (x : Binary64) (p : Int) : Option Decimal :=
  let narrow := x.mantissa = Nat.pow 2 52 ∧ leastExponent < x.exponent
  let unit : Nat := if 0 ≤ p then Nat.pow 10 p.toNat else 1
  let factor : Nat := if 0 ≤ p then 1 else Nat.pow 10 (-p).toNat
  let (scale, den) := scaled factor unit (2 - x.exponent)
  -- Quarters of the last place: the number and the ends of the fractions that round to it.
  let value := 4 * x.mantissa * scale
  let low := (4 * x.mantissa - if narrow then 1 else 2) * scale
  let high := (4 * x.mantissa + 2) * scale
  let inside := fun n : Nat =>
    n ≠ 0 ∧ if x.mantissa % 2 = 0 then low ≤ n * den ∧ n * den ≤ high
      else low < n * den ∧ n * den < high
  let below := value / den
  let nearer := roundDiv value den
  let other := if nearer = below then below + 1 else below
  if inside nearer then some ⟨nearer, p⟩
  else if inside other then some ⟨other, p⟩
  else none

def shortest (x : Binary64) : Decimal :=
  if x.mantissa = 0 then ⟨0, 0⟩
  else ((List.range 660).findSome? fun i : Nat => x.onGrid? (320 - (i : Int))).getD ⟨0, 0⟩

def Decimal.positional (d : Decimal) : String :=
  let ds := Nat.toDigits 10 d.digits
  if 0 ≤ d.exponent then
    String.ofList (ds ++ List.replicate d.exponent.toNat '0' ++ ['.', '0'])
  else
    let places := (-d.exponent).toNat
    let ds := List.replicate (places + 1 - ds.length) '0' ++ ds
    let whole := ds.length - places
    String.ofList (ds.take whole ++ '.' :: ds.drop whole)

def text (x : Binary64) : String := x.shortest.positional

end Binary64

end ResourceManifest
