import ResourceManifest.Number.Binary64
import ResourceManifest.Sequence
import ResourceManifest.Text.Quoted

set_option autoImplicit false

namespace ResourceManifest.Yaml

inductive Found where
  | unit | sequence | mapping
  | boolean (b : Bool)
  /-- An integer with what is said of its size. -/
  | integer (value : Int) (size : String)
  | float (text : String)
  | string (text : String)
  deriving DecidableEq, Repr

def Found.text : Found → String
  | .unit => "unit value"
  | .sequence => "sequence"
  | .mapping => "map"
  | .boolean b => "boolean `" ++ (if b then "true" else "false") ++ "`"
  | .integer n size => "integer `" ++ n.repr ++ "`" ++ size
  | .float t => "floating point `" ++ t ++ "`"
  | .string s => "string " ++ quoted s

def isNull (s : String) : Bool := ["null", "Null", "NULL", "~"].contains s

def boolean? (s : String) : Option Bool :=
  if ["true", "True", "TRUE"].contains s then some true
  else if ["false", "False", "FALSE"].contains s then some false
  else none

def digit? (base : Nat) (c : Char) : Option Nat :=
  let v :=
    if c.isDigit then c.toNat - '0'.toNat
    else if 'a' ≤ c ∧ c ≤ 'f' then c.toNat - 'a'.toNat + 10
    else if 'A' ≤ c ∧ c ≤ 'F' then c.toNat - 'A'.toNat + 10
    else base
  if v < base then some v else none

def digitsValue? (base : Nat) : List Char → Option Nat
  | [] => none
  | ds => ds.foldl (fun v? c => do some ((← v?) * base + (← digit? base c))) (some 0)

def bases : List (List Char × Nat) :=
  [(['0', 'x'], 16), (['0', 'o'], 8), (['0', 'b'], 2)]

def based? (s : List Char) : Option Nat :=
  bases.findSome? fun (p, base) => (after? p s).bind (digitsValue? base)

def isSign (c : Char) : Bool := c == '+' || c == '-'

def unsigned (s : List Char) : List Char := if s.head?.any isSign then s.drop 1 else s

def isZeroPadded (s : List Char) : Bool :=
  match unsigned s with
  | '0' :: d :: ds => (d :: ds).all Char.isDigit
  | _ => false

def natural? (limit : Nat) (s : List Char) : Option Nat :=
  let t := (after? ['+'] s).getD s
  let fits := fun v : Option Nat => v.filter (· < limit)
  match fits (based? t) with
  | some n => some n
  | none => if isZeroPadded s then none else fits (digitsValue? 10 t)

def signed? (limit : Nat) (s : List Char) : Option Int :=
  let negative := fun v : Option Nat => (v.filter (· ≤ limit)).map fun n => -(n : Int)
  match negative ((after? ['-'] s).bind based?) with
  | some n => some n
  | none =>
    if isZeroPadded s then none
    else match s with
      | '-' :: t => negative (digitsValue? 10 t)
      | _ => ((digitsValue? 10 ((after? ['+'] s).getD s)).filter (· < limit)).map (fun n => (n : Int))

def integer? (s : List Char) : Option Found :=
  match natural? (Nat.pow 2 64) s with
  | some n => some (.integer n "")
  | none => match signed? (Nat.pow 2 63) s with
    | some n => some (.integer n "")
    | none => match natural? (Nat.pow 2 128) s with
      | some n => some (.integer n " as u128")
      | none => match signed? (Nat.pow 2 127) s with
        | some n => some (.integer n " as i128")
        | none => none

def exponent? : List Char → Option Int
  | [] => some 0
  | c :: r =>
    if c = 'e' ∨ c = 'E' then
      let value := digitsValue? 10 (unsigned r)
      if r.head? = some '-' then value.map fun n => -(n : Int) else value.map fun n => (n : Int)
    else none

def finite? (s : List Char) : Option Binary64 := do
  let whole := s.takeWhile Char.isDigit
  let r := s.dropWhile Char.isDigit
  let point := r.head? = some '.'
  let r := if point then r.drop 1 else r
  let places := if point then r.takeWhile Char.isDigit else []
  let r := if point then r.dropWhile Char.isDigit else r
  let e ← exponent? r
  let n ← digitsValue? 10 (whole ++ places)
  let e := e - places.length
  let size : Int := e + (Nat.toDigits 10 n).length
  if n = 0 ∨ size < -400 then some ⟨0, Binary64.leastExponent⟩
  else if 400 < size then none
  else if 0 ≤ e then Binary64.nearest? (n * Nat.pow 10 e.toNat) 1
  else Binary64.nearest? n (Nat.pow 10 (-e).toNat)

def float? (s : List Char) : Option Found :=
  let t := (after? ['+'] s).getD s
  if t.length < s.length ∧ t.head?.any isSign then none
  else if [".inf", ".Inf", ".INF"].contains (String.ofList t) then some (.float "inf")
  else if ["-.inf", "-.Inf", "-.INF"].contains (String.ofList s) then some (.float "-inf")
  else if [".nan", ".NaN", ".NAN"].contains (String.ofList s) then some (.float "NaN")
  else match t with
    | '-' :: u => (finite? u).map fun x => .float ("-" ++ x.text)
    | _ => (finite? t).map fun x => .float x.text

def plainValue (s : String) : Found :=
  if s.isEmpty || isNull s then .unit
  else match boolean? s with
    | some b => .boolean b
    | none => match integer? s.toList with
      | some v => v
      | none =>
        if isZeroPadded s.toList then .string s else (float? s.toList).getD (.string s)

end ResourceManifest.Yaml
