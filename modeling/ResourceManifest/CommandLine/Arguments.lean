import ResourceManifest.CommandLine.Flag
import ResourceManifest.CommandLine.Similarity
import ResourceManifest.Job

/-!
From the words of a command line to what they ask for. Words are bytes, and so are the paths among
them. A value stands behind its flag in the same word or is the next word, unless that looks like a
flag. Values are looked at only when the next flag or the end comes, so an unknown word is found
before a bad value in front of it.
-/

set_option autoImplicit false

namespace ResourceManifest

instance : Coe String Bytes := ⟨Utf8.encode⟩

instance : Coe (List String) (List Bytes) := ⟨List.map Utf8.encode⟩

/-- What a command line asks for. -/
structure Arguments where
  root : Path := defaultRoot
  output : Path := defaultOutput
  extensions : List String := []
  preset : Preset := .assets
  configFile? : Option Path := none
  atomic : Bool := false
  followLinks : Bool := false
  respectIgnore : Bool := false
  json : Bool := false
  deriving DecidableEq, Repr, Inhabited

namespace Arguments

def config? (a : Arguments) : Option String := a.configFile?.map Path.toString

def job (a : Arguments) : Job where
  root := a.root
  output := a.output
  allowed := selectExtensions a.extensions (some a.preset)
  mode := if a.atomic then .atomic else .direct
  followLinks := a.followLinks
  respectIgnore := a.respectIgnore

end Arguments

inductive Misuse where
  /-- A word that means nothing, a flag that may have been meant, and the flags to remind of. No word
  stands for a value that is no text and should be. -/
  | unexpected (word? : Option String) (meant? : Option Flag) (used : List Flag)
  | repeated (flag : Flag)
  | noValue (flag : Flag)
  | unknownPreset (value : String)
  | needlessValue (flag : Flag) (value : String) (used : List Flag)
  deriving DecidableEq, Repr

inductive Refusal where
  | help | version
  | misuse (m : Misuse)
  deriving DecidableEq, Repr

namespace Arguments

/-- The arguments so far, the flags that gave them, and a flag whose value is not settled. -/
structure Parsing where
  given : Arguments := {}
  used : List Flag := []
  pending? : Option (Flag × Option Bytes) := none
  deriving Repr

def set (a : Arguments) (f : Flag) (value : Bytes) : Except Misuse Arguments :=
  match f with
  | .ext =>
    match Utf8.decode? value with
    | some text =>
      .ok { a with extensions := a.extensions ++ (text.toList.splitOn ',').map String.ofList }
    | none => .error (.unexpected none none [])
  | .preset =>
    if value = [] then .error (.noValue f)
    else match Preset.ofName? (Utf8.decodeLossy value) with
      | some p => .ok { a with preset := p }
      | none => .error (.unknownPreset (Utf8.decodeLossy value))
  | .root => if value = [] then .error (.noValue f) else .ok { a with root := ⟨value⟩ }
  | .output => if value = [] then .error (.noValue f) else .ok { a with output := ⟨value⟩ }
  | .config => if value = [] then .error (.noValue f) else .ok { a with configFile? := some ⟨value⟩ }
  | _ => .ok a

def switch (a : Arguments) : Flag → Except Refusal Arguments
  | .atomic => .ok { a with atomic := true }
  | .followLinks => .ok { a with followLinks := true }
  | .respectIgnore => .ok { a with respectIgnore := true }
  | .json => .ok { a with json := true }
  | .help => .error .help
  | .version => .error .version
  | _ => .ok a

namespace Parsing

def note (s : Parsing) (f : Flag) : Except Refusal Parsing :=
  if s.used.contains f then
    if f.isRepeatable then .ok s else .error (.misuse (.repeated f))
  else .ok { s with used := s.used ++ [f] }

def remind (s : Parsing) (f : Flag) : List Flag :=
  if s.used.contains f then s.used else s.used ++ [f]

def addValue (s : Parsing) (f : Flag) (value : Bytes) : Except Refusal Parsing := do
  let s ← s.note f
  match s.given.set f value with
  | .ok given => .ok { s with given }
  | .error m => .error (.misuse m)

def settle (s : Parsing) : Except Refusal Parsing :=
  match s.pending? with
  | none => .ok s
  | some (f, none) => .error (.misuse (.noValue f))
  | some (f, some value) => { s with pending? := none }.addValue f value

def attached (s : Parsing) (f : Flag) (value : Bytes) : Except Refusal Parsing := do
  let s ← s.settle
  s.addValue f value

def flag (s : Parsing) (f : Flag) : Except Refusal Parsing := do
  let s ← s.settle
  if f.takesValue then .ok { s with pending? := some (f, none) }
  else
    let s ← s.note f
    let given ← s.given.switch f
    .ok { s with given }

def unexpected {α : Type} (word : String) : Except Refusal α :=
  .error (.misuse (.unexpected (some word) none []))

def equalSign : UInt8 := 0x3D
def dash : UInt8 := 0x2D

def long (s : Parsing) (bs : Bytes) : Except Refusal Parsing :=
  let name := Utf8.decodeLossy (bs.takeWhile (· ≠ equalSign))
  let value? := match bs.dropWhile (· ≠ equalSign) with
    | _ :: v => some v
    | [] => none
  match Flag.ofLong? name, value? with
  | some f, none => s.flag f
  | some f, some v =>
    if f.takesValue then s.attached f v
    else .error (.misuse (.needlessValue f (Utf8.decodeLossy v) (s.remind f)))
  | none, _ =>
    let meant? := Similarity.closest? name Flag.long Flag.all
    .error (.misuse (.unexpected (some ("--" ++ name)) meant? (meant?.elim s.used s.remind)))

/-- Letters behind one dash, and bytes behind them that are none: flags, of which the last may have
its value behind it. -/
def short (s : Parsing) (broken : Bytes) : List Char → Except Refusal Parsing
  | [] => if broken = [] then .ok s else unexpected ("-" ++ Utf8.decodeLossy broken)
  | c :: r =>
    match Flag.ofShort? c with
    | none => unexpected (String.ofList ['-', c])
    | some f =>
      if f.takesValue then
        match Utf8.encodeChars r ++ broken with
        | [] => s.flag f
        | b :: v => if b = equalSign then s.attached f v else s.attached f (b :: v)
      else do
        let s ← s.flag f
        short s broken r

def word (s : Parsing) (w : Bytes) : Except Refusal Parsing :=
  match s.pending? with
  | some (f, none) => .ok { s with pending? := some (f, some w) }
  | _ => unexpected (Utf8.decodeLossy w)

inductive Shape where
  | dashes
  | long (rest : Bytes)
  | short (letters : List Char) (broken : Bytes)
  | plain
  deriving DecidableEq

def shape : Bytes → Shape
  | a :: b :: r =>
    if a ≠ dash then .plain
    else if b = dash then if r = [] then .dashes else .long r
    else
      let (letters, broken) := Utf8.leadingChars (b :: r)
      .short letters broken
  | _ => .plain

def words (s : Parsing) : List Bytes → Except Refusal Parsing
  | [] => s.settle
  | w :: ws =>
    match shape w with
    | .dashes => match ws with
      | [] => s.settle
      | next :: _ => unexpected (Utf8.decodeLossy next)
    | .long rest => do words (← s.long rest) ws
    | .short letters broken => do words (← s.short broken letters) ws
    | .plain => do words (← s.word w) ws

end Parsing

def parse (ws : List Bytes) : Except Refusal Arguments :=
  (Parsing.words {} ws).map (·.given)

end Arguments

end ResourceManifest
