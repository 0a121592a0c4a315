import ResourceManifest.FileSystem

set_option autoImplicit false

namespace ResourceManifest.IgnoreSettings

def isBlank (b : UInt8) : Bool := b == 0x20 || (0x09 ≤ b && b ≤ 0x0D)

def lineFeed : UInt8 := 0x0A
def quote : UInt8 := 0x22

def dropBlanks (bs : Bytes) : Bytes := bs.dropWhile isBlank

def lower (b : UInt8) : UInt8 := if 0x41 ≤ b && b ≤ 0x5A then b + 0x20 else b

def endsLine (bs : Bytes) : Bool :=
  (dropBlanks bs).isEmpty || (bs.takeWhile isBlank).contains lineFeed

/-- A value without blanks in it, up to the end of its line; a quote at its end is left out. -/
def value? (bs : Bytes) : Option Bytes :=
  let v := bs.takeWhile (!isBlank ·)
  let rest := bs.dropWhile (!isBlank ·)
  let unquoted := match dropBlanks rest with
    | b :: more => if b = quote then more else rest
    | [] => rest
  if v = [] then none
  else if 1 < v.length ∧ v.getLast? = some quote ∧ endsLine rest then some v.dropLast
  else if endsLine rest ∨ endsLine unquoted then some v
  else none

def settingAt? (bs : Bytes) : Option Bytes :=
  let key := Utf8.encode "excludesfile"
  match (dropBlanks bs).drop key.length with
  | rest =>
    if ((dropBlanks bs).take key.length).map lower ≠ key then none
    else match dropBlanks rest with
      | 0x3D :: more =>
        let v := dropBlanks more
        if v.head? = some quote then (value? (dropBlanks v.tail)).or (value? v) else value? v
      | _ => none

def setting? : Bytes → Option Bytes
  | [] => none
  | b :: r => if b = lineFeed then (settingAt? r).or (setting? r) else setting? r

def namedIn (home? : Option String) (content : Bytes) : Option Path := do
  let bs ← setting? (lineFeed :: content)
  let text ← Utf8.decode? bs
  match home? with
  | some home => some (.ofString (text.replace "~" home))
  | none => some (.ofString text)

def ofHome (home? config? : Option String) : IgnoreSettings :=
  let config? := (config?.filter (· ≠ "")).map Path.ofString |>.or
    (home?.map fun h => (Path.ofString h).join (Utf8.encode ".config"))
  { configs :=
      (home?.map fun h => (Path.ofString h).join (Utf8.encode ".gitconfig")).toList ++
        (config?.map (·.join (Utf8.encode "git/config"))).toList
    named? := namedIn home?
    standard? := config?.map (·.join (Utf8.encode "git/ignore")) }

example : setting? (Utf8.encode "\n[core]\n\tExcludesFile = \"~/.ignored\"  \n") =
    some (Utf8.encode "~/.ignored") := by decide +kernel

end ResourceManifest.IgnoreSettings
