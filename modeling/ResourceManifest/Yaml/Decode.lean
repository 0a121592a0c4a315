import ResourceManifest.Yaml.Event
import ResourceManifest.Yaml.Plain

/-!
Values from the events of a document. A decoder asks for one kind of value; where it finds
another it says what it found, what was expected, and where in the document that is.
-/

set_option autoImplicit false

namespace ResourceManifest.Yaml

inductive Complaint where
  | invalidType (found : Found) (expected : String)
  | invalidValue (found : Found) (expected : String)
  | unknownField (name : String) (known : List String)
  | unknownVariant (name : String) (known : List String)
  | duplicateField (name : String)
  deriving DecidableEq, Repr

def choices : List String → String
  | [a, b] => "`" ++ a ++ "` or `" ++ b ++ "`"
  | [a] => "`" ++ a ++ "`"
  | as => "one of " ++ String.intercalate ", " (as.map fun a => "`" ++ a ++ "`")

def Complaint.text : Complaint → String
  | .invalidType f e => "invalid type: " ++ f.text ++ ", expected " ++ e
  | .invalidValue f e => "invalid value: " ++ f.text ++ ", expected " ++ e
  | .unknownField n known => "unknown field `" ++ n ++ "`, expected " ++ choices known
  | .unknownVariant n known => "unknown variant `" ++ n ++ "`, expected " ++ choices known
  | .duplicateField n => "duplicate field `" ++ n ++ "`"

inductive Place where
  | top
  | field (parent : Place) (key : String)
  | item (parent : Place) (index : Nat)
  /-- Under a key that is no scalar. -/
  | unknown (parent : Place)
  deriving DecidableEq, Repr

namespace Place

mutual
def text : Place → String
  | .top => "."
  | .field p key => p.before ++ key
  | .item p i => p.text ++ "[" ++ i.repr ++ "]"
  | .unknown p => p.before ++ "?"

/-- The text of a place with a point behind it; nothing for the top. -/
def before : Place → String
  | .top => ""
  | .field p key => p.before ++ key ++ "."
  | .item p i => p.text ++ "[" ++ i.repr ++ "]."
  | .unknown p => p.before ++ "?."
end

end Place

inductive Flaw where
  | interrupted (i : Interruption)
  | endOfEvents
  | tooManyJumps
  | severalDocuments
  | complaint (c : Complaint) (site? : Option (Mark × Place))
  deriving DecidableEq, Repr

namespace Flaw

def text : Flaw → String
  | .interrupted i => i.text
  | .endOfEvents => "EOF while parsing a value"
  | .tooManyJumps => "repetition limit exceeded"
  | .severalDocuments =>
    "deserializing from YAML containing more than one document is not supported"
  | .complaint c none => c.text
  | .complaint c (some (m, .top)) => c.text ++ m.suffix
  | .complaint c (some (m, p)) => p.text ++ ": " ++ c.text ++ m.suffix

def locate (m : Mark) (p : Place) : Flaw → Flaw
  | .complaint c none => .complaint c (some (m, p))
  | f => f

end Flaw

/-- The events that are left, and how many aliases have been followed. -/
structure Progress where
  rest : List Event
  jumps : Nat := 0

structure First extends Event where
  alias? : Option Mark

abbrev Decoder (α : Type) :=
  First → Document → Place → Progress → Except Flaw (α × Progress)

def complain {α : Type} (c : Complaint) : Except Flaw α := .error (.complaint c none)

def Document.ending (d : Document) : Flaw :=
  match d.interruption? with
  | some i => .interrupted i
  | none => .endOfEvents

def boolTag : Bytes := Utf8.encode "tag:yaml.org,2002:bool"
def intTag : Bytes := Utf8.encode "tag:yaml.org,2002:int"
def floatTag : Bytes := Utf8.encode "tag:yaml.org,2002:float"
def nullTag : Bytes := Utf8.encode "tag:yaml.org,2002:null"

def isLocal (tag : Bytes) : Bool := tag.head? == some 0x21

def localName? (tag? : Option Bytes) : Option String :=
  match tag? with
  | some (0x21 :: name) => Utf8.decode? name
  | _ => none

def scalarComplaint (expected : String) (tag? : Option Bytes) (style : ScalarStyle)
    (s : String) : Complaint :=
  let asTagged := fun (value? : Option Found) (kind : String) =>
    match value? with
    | some v => Complaint.invalidType v expected
    | none => .invalidValue (.string s) kind
  let asPlain := Complaint.invalidType (plainValue s) expected
  let asText := Complaint.invalidType (.string s) expected
  match tag? with
  | some tag =>
    if tag = boolTag then asTagged ((boolean? s).map .boolean) "a boolean"
    else if tag = intTag then asTagged (integer? s.toList) "an integer"
    else if tag = floatTag then asTagged (float? s.toList) "a float"
    else if tag = nullTag then asTagged (if isNull s then some .unit else none) "null"
    else if isLocal tag ∧ style = .plain then asPlain
    else asText
  | none => if style = .plain then asPlain else asText

def EventKind.unexpected (expected : String) : EventKind → Flaw
  | .scalar tag? style s => .complaint (scalarComplaint expected tag? style s) none
  | .sequenceStart _ => .complaint (.invalidType .sequence expected) none
  | .mappingStart _ => .complaint (.invalidType .mapping expected) none
  | _ => .endOfEvents

namespace Decoder

variable {α : Type}

/-- Decodes the next value. An alias is followed to its anchor, and the events after the alias
are next. -/
def next (decode : Decoder α) (d : Document) (p : Place) (s : Progress) :
    Except Flaw (α × Progress) :=
  match s.rest with
  | [] => .error d.ending
  | ⟨.alias id, m⟩ :: rest =>
    if 100 * d.events.length < s.jumps + 1 then .error .tooManyJumps
    else
      match d.target id with
      | [] => .error d.ending
      | e :: more => (decode ⟨e, some m⟩ d p ⟨more, s.jumps + 1⟩).map fun (a, t) => (a, ⟨rest, t.jumps⟩)
  | e :: rest => decode ⟨e, none⟩ d p ⟨rest, s.jumps⟩

def map {β : Type} (f : α → β) (decode : Decoder α) : Decoder β := fun e d p s =>
  (decode e d p s).map fun (a, s) => (f a, s)

def located (decode : Decoder α) : Decoder α := fun e d p s =>
  (decode e d p s).mapError (Flaw.locate e.mark p)

def text (expected : String) : Decoder String := located fun e _ _ s =>
  match e.kind with
  | .scalar _ _ t => .ok (t, s)
  | k => .error (k.unexpected expected)

def bool : Decoder Bool := located fun e _ _ s =>
  let value? := match e.kind with
    | .scalar tag? style t =>
      if style = .plain ∨ (style = .literal ∧ tag? = some boolTag) then boolean? t else none
    | _ => none
  match value? with
  | some b => .ok (b, s)
  | none => .error (e.kind.unexpected "a boolean")

def option (decode : Decoder α) : Decoder (Option α) := fun e d p s =>
  let present := (decode ⟨e.toEvent, none⟩ d p s).map fun (a, s) => (some a, s)
  match e.kind with
  | .scalar (some tag) .plain t =>
    if tag ≠ nullTag then present
    else if isNull t then .ok (none, s)
    else complain (.invalidValue (.string t) "null")
  | .scalar none .plain t => if t.isEmpty || isNull t then .ok (none, s) else present
  | .void => .ok (none, s)
  | _ => present

def isLeftOut : EventKind → Bool
  | .void => true
  | .scalar _ .plain t => t.isEmpty
  | _ => false

/-- The items up to the end of a sequence; every item takes an event. -/
def items (decode : Decoder α) (d : Document) (p : Place) :
    Nat → Nat → Progress → Except Flaw (List α × Progress)
  | 0, _, _ => .error d.ending
  | fuel + 1, i, s =>
    match s.rest with
    | [] => .error d.ending
    | ⟨.sequenceEnd, _⟩ :: rest => .ok ([], { s with rest })
    | _ => do
      let (a, s) ← next decode d (.item p i) s
      let (more, s) ← items decode d p fuel (i + 1) s
      .ok (a :: more, s)

def list (decode : Decoder α) : Decoder (List α) := located fun e d p s =>
  match e.kind with
  | .sequenceStart _ => items decode d p (s.rest.length + 1) 0 s
  | k => if isLeftOut k then .ok ([], s) else .error (k.unexpected "a sequence")

def skipNode : Nat → List Event → Option (List Event)
  | _, [] => none
  | depth, e :: r =>
    let depth := match e.kind with
      | .sequenceStart _ | .mappingStart _ => depth + 1
      | .sequenceEnd | .mappingEnd => depth - 1
      | _ => depth
    if depth = 0 then some r else skipNode depth r

def skip (d : Document) (s : Progress) : Except Flaw Progress :=
  match skipNode 0 s.rest with
  | some rest => .ok { s with rest }
  | none => .error d.ending

/-- How a mapping is read: which keys it may have, and what a key's value adds to what has been
read before. A key without a reading is passed over with its value. -/
structure Record (α : Type) where
  expected : String
  empty : α
  checkKey : String → Except Complaint Unit
  member : String → α → Except Complaint (Option (Decoder α))

def fieldName (r : Record α) : Decoder String := located fun e d p s => do
  let (key, s) ← text "field identifier" e d p s
  match r.checkKey key with
  | .ok () => .ok (key, s)
  | .error c => complain c

def valuePlace (p : Place) : List Event → Place
  | ⟨.scalar _ _ key, _⟩ :: _ => .field p key
  | _ => .unknown p

def members (r : Record α) (d : Document) (p : Place) :
    Nat → α → Progress → Except Flaw (α × Progress)
  | 0, _, _ => .error d.ending
  | fuel + 1, a, s =>
    match s.rest with
    | [] => .error d.ending
    | ⟨.mappingEnd, _⟩ :: rest => .ok (a, { s with rest })
    | _ => do
      let place := valuePlace p s.rest
      let (key, s) ← next (fieldName r) d p s
      match r.member key a with
      | .error c => complain c
      | .ok none =>
        let s ← skip d s
        members r d p fuel a s
      | .ok (some decode) =>
        let (a, s) ← next decode d place s
        members r d p fuel a s

def record (r : Record α) : Decoder α := located fun e d p s =>
  match e.kind with
  | .mappingStart _ => members r d p (s.rest.length + 1) r.empty s
  | k => if isLeftOut k then .ok (r.empty, s) else .error (k.unexpected r.expected)

structure Variants (α : Type) where
  all : List α
  name : α → String

def Variants.find (v : Variants α) (n : String) : Except Complaint α :=
  match v.all.find? (v.name · == n) with
  | some a => .ok a
  | none => .error (.unknownVariant n (v.all.map v.name))

def unit : Decoder Unit := located fun e _ _ s =>
  match e.kind with
  | .scalar _ style t =>
    if style = .plain ∧ (t.isEmpty || isNull t) then .ok ((), s)
    else complain (.invalidValue (.string t) "null")
  | .void => .ok ((), s)
  | k => .error (k.unexpected "unit")

def locatedAtAlias (decode : Decoder α) : Decoder α := fun e d p s =>
  match e.alias? with
  | some m => (decode e d p s).mapError (Flaw.locate m p)
  | none => decode e d p s

def variant (v : Variants α) : Decoder α := locatedAtAlias fun e d p s =>
  let tagged := fun (n : String) => do
    match v.find n with
    | .error c => complain c
    | .ok a =>
      let ((), s) ← unit e d p s
      .ok (a, s)
  let untagged := fun (found : Found) => Except.error <| Flaw.complaint
    (.invalidType found "a YAML tag starting with '!'") (some (e.mark, p))
  match e.kind with
  | .scalar tag? _ t =>
    match localName? tag? with
    | some n => tagged n
    | none =>
      match v.find t with
      | .ok a => .ok (a, s)
      | .error c => .error (.complaint c (some (e.mark, p)))
  | .mappingStart tag? => match localName? tag? with
    | some n => tagged n
    | none => untagged .mapping
  | .sequenceStart tag? => match localName? tag? with
    | some n => tagged n
    | none => untagged .sequence
  | k => .error (k.unexpected "a YAML tag starting with '!'")

end Decoder

def decode {α : Type} (decoder : Decoder α) (bs : Bytes) : Except Flaw α := do
  let d := Document.ofBytes bs
  let (a, _) ← decoder.next d .top ⟨d.events, 0⟩
  match d.interruption? with
  | some i => .error (.interrupted i)
  | none => if d.hasSuccessor then .error .severalDocuments else .ok a

end ResourceManifest.Yaml
