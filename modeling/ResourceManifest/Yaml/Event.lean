import ResourceManifest.Yaml.Scan

/-!
The first document of a text as a run of events: scalars, aliases, and the starts and ends of
sequences and mappings. Events before a fault stand; what comes after the document is only
looked at to see whether there is more than one.
-/

set_option autoImplicit false

namespace ResourceManifest.Yaml

inductive EventKind where
  | alias (id : Nat)
  | scalar (tag? : Option Bytes) (style : ScalarStyle) (text : String)
  | sequenceStart (tag? : Option Bytes)
  | sequenceEnd
  | mappingStart (tag? : Option Bytes)
  | mappingEnd
  /-- The one event of a text without a document. -/
  | void
  deriving DecidableEq, Repr

structure Event where
  kind : EventKind
  mark : Mark
  deriving DecidableEq, Repr

inductive Interruption where
  | fault : Fault → Interruption
  | unknownAnchor : Mark → Interruption
  deriving DecidableEq, Repr

def Interruption.text : Interruption → String
  | .fault f => f.text
  | .unknownAnchor m => "unknown anchor" ++ m.suffix

/-- A document being read: events in reverse, the number of each anchor, and for each number the
last event that it was given to. -/
structure Reader where
  tokens : List Token
  fault? : Option Fault
  handles : List (List Char × Bytes) := []
  events : List Event := []
  anchors : List (List Char × Nat) := []
  targets : List (Nat × Nat) := []

abbrev Reading := EStateM Interruption Reader

namespace Reading

def misplaced {α : Type} (p : Problem) (place : Mark) (context : Option (Activity × Mark)) :
    Reading α :=
  throw (.fault (.misplaced p place context))

def peek : Reading Token := do
  let s ← get
  match s.tokens, s.fault? with
  | t :: _, _ => pure t
  | [], some f => throw (.fault f)
  | [], none => pure ⟨.streamEnd, {}⟩

def drop : Reading Unit := modify fun s => { s with tokens := s.tokens.drop 1 }

def emit (kind : EventKind) (mark : Mark) : Reading Unit :=
  modify fun s => { s with events := ⟨kind, mark⟩ :: s.events }

def emitNothing (mark : Mark) : Reading Unit := emit (.scalar none .plain "") mark

/-- Gives an anchor to the event that comes next. Its number is how many names there were. -/
def addAnchor : Option (List Char) → Reading Unit
  | none => pure ()
  | some name => modify fun s =>
    let id := s.anchors.length
    { s with
      anchors := (name, id) :: s.anchors.filter (·.1 != name)
      targets := (id, s.events.length) :: s.targets.filter (·.1 != id) }

def emitAlias (name : List Char) (mark : Mark) : Reading Unit := do
  match (← get).anchors.lookup name with
  | some id => emit (.alias id) mark
  | none => throw (.unknownAnchor mark)

structure Properties where
  anchor? : Option (List Char) := none
  tag? : Option (List Char × Bytes × Mark) := none

def properties : Reading Properties := do
  let t ← peek
  match t.kind with
  | .anchor name =>
    drop
    let t ← peek
    match t.kind with
    | .tag handle suffix =>
      drop
      pure ⟨some name, some (handle, suffix, t.mark)⟩
    | _ => pure ⟨some name, none⟩
  | .tag handle suffix =>
    drop
    let tag := (handle, suffix, t.mark)
    let t ← peek
    match t.kind with
    | .anchor name =>
      drop
      pure ⟨some name, some tag⟩
    | _ => pure ⟨none, some tag⟩
  | _ => pure {}

def resolveTag (p : Properties) (start : Mark) : Reading (Option Bytes) := do
  match p.tag? with
  | none => pure none
  | some ([], suffix, _) => pure (some suffix)
  | some (handle, suffix, mark) =>
    match (← get).handles.lookup handle with
    | some uri => pure (some (uri ++ suffix))
    | none => misplaced .undefinedTagHandle mark (some (.node, start))

def scalarTag? (tag? : Option Bytes) : Option Bytes := tag?.filter (· != Utf8.encode "!")

mutual
def node (fuel : Nat) (block indentless : Bool) : Reading Unit :=
  match fuel with
  | 0 => pure ()
  | fuel + 1 => do
    let t ← peek
    let start := t.mark
    match t.kind with
    | .alias name =>
      emitAlias name start
      drop
    | _ =>
      let p ← properties
      let tag? ← resolveTag p start
      let t ← peek
      let announce := fun kind => do
        addAnchor p.anchor?
        emit kind start
      match t.kind with
      | .scalar style text =>
        drop
        announce (.scalar (scalarTag? tag?) style (String.ofList text))
      | .flowSequenceStart =>
        announce (.sequenceStart tag?)
        drop
        flowSequence fuel t.mark true
      | .flowMappingStart =>
        announce (.mappingStart tag?)
        drop
        flowMapping fuel t.mark true
      | kind =>
        if kind = .blockEntry ∧ indentless then
          announce (.sequenceStart tag?)
          indentlessSequence fuel
        else if kind = .blockSequenceStart ∧ block then
          announce (.sequenceStart tag?)
          drop
          blockSequence fuel t.mark
        else if kind = .blockMappingStart ∧ block then
          announce (.mappingStart tag?)
          drop
          blockMapping fuel t.mark
        else if p.anchor?.isSome ∨ tag?.isSome then
          announce (.scalar tag? .plain "")
        else
          misplaced .noNodeContent t.mark
            (some (if block then .blockNode else .flowNode, start))

def blockSequence (fuel : Nat) (start : Mark) : Reading Unit :=
  match fuel with
  | 0 => pure ()
  | fuel + 1 => do
    let t ← peek
    match t.kind with
    | .blockEntry =>
      drop
      let next ← peek
      if next.kind = .blockEntry ∨ next.kind = .blockEnd then emitNothing t.behind
      else node fuel true false
      blockSequence fuel start
    | .blockEnd =>
      emit .sequenceEnd t.mark
      drop
    | _ => misplaced .noEntry t.mark (some (.blockSequence, start))

def indentlessSequence (fuel : Nat) : Reading Unit :=
  match fuel with
  | 0 => pure ()
  | fuel + 1 => do
    let t ← peek
    match t.kind with
    | .blockEntry =>
      drop
      let next ← peek
      match next.kind with
      | .blockEntry | .key _ | .value | .blockEnd => emitNothing t.behind
      | _ => node fuel true false
      indentlessSequence fuel
    | _ => emit .sequenceEnd t.mark

def blockMember (fuel : Nat) (behind : Mark) : Reading Unit :=
  match fuel with
  | 0 => pure ()
  | fuel + 1 => do
    match (← peek).kind with
    | .key _ | .value | .blockEnd => emitNothing behind
    | _ => node fuel true true

def blockMapping (fuel : Nat) (start : Mark) : Reading Unit :=
  match fuel with
  | 0 => pure ()
  | fuel + 1 => do
    let t ← peek
    match t.kind with
    | .key _ =>
      drop
      blockMember fuel t.behind
      let t ← peek
      match t.kind with
      | .value =>
        drop
        blockMember fuel t.behind
      | _ => emitNothing t.mark
      blockMapping fuel start
    | .blockEnd =>
      emit .mappingEnd t.mark
      drop
    | _ => misplaced .noKey t.mark (some (.blockMapping, start))

def flowValue (fuel : Nat) (close : TokenKind) : Reading Unit :=
  match fuel with
  | 0 => pure ()
  | fuel + 1 => do
    let t ← peek
    match t.kind with
    | .value =>
      drop
      let t ← peek
      if t.kind = .flowEntry ∨ t.kind = close then emitNothing t.mark else node fuel false false
    | _ => emitNothing t.mark

def flowPair (fuel : Nat) : Reading Unit :=
  match fuel with
  | 0 => pure ()
  | fuel + 1 => do
    let t ← peek
    match t.kind with
    | .value | .flowEntry | .flowSequenceEnd =>
      drop
      emitNothing t.behind
    | _ => node fuel false false
    flowValue fuel .flowSequenceEnd
    emit .mappingEnd (← peek).mark

def flowSequence (fuel : Nat) (start : Mark) (isFirst : Bool) : Reading Unit :=
  match fuel with
  | 0 => pure ()
  | fuel + 1 => do
    if (← peek).kind ≠ .flowSequenceEnd ∧ !isFirst then
      let t ← peek
      if t.kind = .flowEntry then drop
      else misplaced .noSequenceEnd t.mark (some (.flowSequence, start))
    let t ← peek
    match t.kind with
    | .flowSequenceEnd =>
      emit .sequenceEnd t.mark
      drop
    | .key _ =>
      emit (.mappingStart none) t.mark
      drop
      flowPair fuel
      flowSequence fuel start false
    | _ =>
      node fuel false false
      flowSequence fuel start false

def flowMapping (fuel : Nat) (start : Mark) (isFirst : Bool) : Reading Unit :=
  match fuel with
  | 0 => pure ()
  | fuel + 1 => do
    if (← peek).kind ≠ .flowMappingEnd ∧ !isFirst then
      let t ← peek
      if t.kind = .flowEntry then drop
      else misplaced .noMappingEnd t.mark (some (.flowMapping, start))
    let t ← peek
    match t.kind with
    | .flowMappingEnd =>
      emit .mappingEnd t.mark
      drop
    | .key _ =>
      drop
      let t ← peek
      match t.kind with
      | .value | .flowEntry | .flowMappingEnd => emitNothing t.mark
      | _ => node fuel false false
      flowValue fuel .flowMappingEnd
      flowMapping fuel start false
    | _ =>
      node fuel false false
      emitNothing (← peek).mark
      flowMapping fuel start false
end

def defaultHandles : List (List Char × Bytes) :=
  [(['!'], Utf8.encode "!"), (['!', '!'], Utf8.encode "tag:yaml.org,2002:")]

def addHandle (handle : List Char) (uri : Bytes) (mark : Mark) : Reading Unit := do
  if ((← get).handles.lookup handle).isSome then misplaced .duplicateTagHandle mark none
  else modify fun s => { s with handles := s.handles ++ [(handle, uri)] }

def directives (fuel : Nat) (versioned : Bool) : Reading Unit :=
  match fuel with
  | 0 => pure ()
  | fuel + 1 => do
    let t ← peek
    match t.kind with
    | .versionDirective major minor =>
      if versioned then misplaced .duplicateVersion t.mark none
      else if major ≠ 1 ∨ (minor ≠ 1 ∧ minor ≠ 2) then misplaced .badVersion t.mark none
      drop
      directives fuel true
    | .tagDirective handle uri =>
      addHandle handle uri t.mark
      drop
      directives fuel versioned
    | _ => modify fun s => { s with
        handles := s.handles ++ defaultHandles.filter fun h => (s.handles.lookup h.1).isNone }

def firstDocument (fuel : Nat) : Reading Unit := do
  let t ← peek
  match t.kind with
  | .streamEnd => emit .void t.mark
  | .versionDirective _ _ | .tagDirective _ _ | .documentStart =>
    directives fuel false
    let t ← peek
    if t.kind ≠ .documentStart then misplaced .noDocumentStart t.mark none
    drop
    let t ← peek
    match t.kind with
    | .versionDirective _ _ | .tagDirective _ _ | .documentStart | .documentEnd | .streamEnd =>
      emitNothing t.mark
    | _ => node fuel true false
    discard peek
  | _ =>
    directives fuel false
    node fuel true false
    discard peek

end Reading

structure Document where
  events : List Event
  interruption? : Option Interruption
  /-- For each number of an anchor the index of its event. -/
  targets : List (Nat × Nat)
  /-- Whether anything but the end of the text follows. -/
  hasSuccessor : Bool

namespace Document

def ofTokens (ts : List Token) (fault? : Option Fault) : Document :=
  match Reading.firstDocument (2 * ts.length + 4) { tokens := ts, fault? } with
  | .ok _ s =>
    let rest := s.tokens.dropWhile (·.kind == .documentEnd)
    ⟨s.events.reverse, none, s.targets, rest.head?.map (·.kind) != some .streamEnd⟩
  | .error i s => ⟨s.events.reverse, some i, s.targets, false⟩

def ofBytes (bs : Bytes) : Document :=
  let (ts, fault?) := tokens (.ofBytes bs)
  ofTokens ts fault?

def target (d : Document) (id : Nat) : List Event :=
  d.events.drop ((d.targets.lookup id).getD d.events.length)

end Document

end ResourceManifest.Yaml
