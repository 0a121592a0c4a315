import ResourceManifest.Yaml.Property

/-!
From characters to tokens. The key of a mapping is recognised only by the colon behind it, so
where a key may begin the tokens wait; each is given out once no key can begin at it any more.
-/

set_option autoImplicit false

namespace ResourceManifest.Yaml

/-- A place where a key may have begun: the number that its token would have. -/
structure OpenKey where
  number : Nat
  required : Bool
  mark : Mark
  deriving DecidableEq, Repr

def OpenKey.isPast (k : OpenKey) (m : Mark) : Bool :=
  k.mark.line < m.line || k.mark.index + 1024 < m.index

structure Scanner where
  cursor : Cursor
  /-- Tokens not yet given out, and the number of those given out. -/
  waiting : List Token := []
  given : Nat := 0
  /-- One more than the column of the innermost block collection, and those around it. -/
  margin : Nat := 0
  margins : List Nat := []
  /-- The open key of this flow level, and those of the levels around it. -/
  openKey : Option OpenKey := none
  outerKeys : List (Option OpenKey) := []
  keyAllowed : Bool := true
  ended : Bool := false

namespace Scanner

def inFlow (s : Scanner) : Bool := !s.outerKeys.isEmpty

def mark (s : Scanner) : Mark := s.cursor.mark

def push (s : Scanner) (kind : TokenKind) (mark : Mark) : Scanner :=
  { s with waiting := s.waiting ++ [⟨kind, mark⟩] }

def insert (s : Scanner) (n : Nat) (kind : TokenKind) (mark : Mark) : Scanner :=
  { s with waiting := s.waiting.insertIdx (n - s.given) ⟨kind, mark⟩ }

def noColon {α : Type} (s : Scanner) (k : OpenKey) : Except Fault α :=
  .error (.misplaced .noColon s.mark (some (.simpleKey, k.mark)))

def dropPastKeys (s : Scanner) : Except Fault Scanner :=
  let past := fun k : OpenKey => k.isPast s.mark
  match (s.openKey :: s.outerKeys).reverse.reduceOption.find? fun k => k.required && past k with
  | some k => s.noColon k
  | none => .ok { s with
      openKey := s.openKey.filter (!past ·), outerKeys := s.outerKeys.map (·.filter (!past ·)) }

def dropKey (s : Scanner) : Except Fault Scanner :=
  match s.openKey with
  | some k => if k.required then s.noColon k else .ok { s with openKey := none }
  | none => .ok s

def saveKey (s : Scanner) : Except Fault Scanner := do
  if s.keyAllowed then
    let key : OpenKey :=
      ⟨s.given + s.waiting.length, !s.inFlow && s.margin == s.mark.column + 1, s.mark⟩
    let s ← s.dropKey
    .ok { s with openKey := some key }
  else .ok s

def indent (s : Scanner) (column : Nat) (number? : Option Nat) (kind : TokenKind) (mark : Mark) :
    Scanner :=
  if s.inFlow || column < s.margin then s
  else
    let s := { s with margins := s.margin :: s.margins, margin := column + 1 }
    match number? with
    | some n => s.insert n kind mark
    | none => s.push kind mark

def closeTo (margin : Nat) (s : Scanner) : List Nat → Scanner
  | [] => s
  | outer :: more =>
    if margin < s.margin then
      closeTo margin { s.push .blockEnd s.mark with margin := outer, margins := more } more
    else s

def unindent (s : Scanner) (margin : Nat) : Scanner :=
  if s.inFlow then s else closeTo margin s s.margins

/-- Over blanks, comments, line breaks and the order mark of a line, to the first character of a
token. Outside flow collections a new line may begin with a key, and where a key may begin a tab
is no blank. With the cursor comes whether a key may begin there. -/
def skipGap (fault? : Option Fault) (inFlow : Bool) :
    Bool → Bool → Mark → List Char → Except Fault (Bool × Cursor)
  | keyAllowed, _, mark, [] =>
    match fault? with
    | some f => .error f
    | none => .ok (keyAllowed, ⟨[], mark, none⟩)
  | keyAllowed, _, mark, '\r' :: '\n' :: r =>
    skipGap fault? inFlow (keyAllowed || !inFlow) false (mark.down 2) r
  | keyAllowed, inComment, mark, c :: r =>
    if isBreak c then skipGap fault? inFlow (keyAllowed || !inFlow) false (mark.down 1) r
    else if inComment || c == '#' || c == ' ' || (c == '\t' && (inFlow || !keyAllowed)) ||
        (c == '\uFEFF' && mark.column == 0) then
      skipGap fault? inFlow keyAllowed (inComment || c == '#') (mark.right 1) r
    else .ok (keyAllowed, ⟨c :: r, mark, fault?⟩)

theorem skipGap_blank (inFlow keyAllowed : Bool) (m : Mark) (r : List Char) :
    skipGap none inFlow keyAllowed false m (' ' :: r) =
      skipGap none inFlow keyAllowed false m.right r := by rfl

theorem skipGap_lineFeed (inFlow keyAllowed : Bool) (m : Mark) (r : List Char) :
    skipGap none inFlow keyAllowed false m ('\n' :: r) =
      skipGap none inFlow (keyAllowed || !inFlow) false (m.down 1) r := by rfl

def skipToToken (s : Scanner) : Except Fault Scanner := do
  let (keyAllowed, c) ←
    skipGap s.cursor.fault? s.inFlow s.keyAllowed false s.mark s.cursor.rest
  .ok { s with cursor := c, keyAllowed }

def sign (s : Scanner) (kind : TokenKind) (n : Nat := 1) : Scanner :=
  { s.push kind s.mark with cursor := s.cursor.skip n }

def openFlow (s : Scanner) (kind : TokenKind) : Except Fault Scanner := do
  let s ← s.saveKey
  .ok ({ s with outerKeys := s.openKey :: s.outerKeys, openKey := none, keyAllowed := true }.sign
    kind)

def closeFlow (s : Scanner) (kind : TokenKind) : Except Fault Scanner := do
  let s ← s.dropKey
  let s := match s.outerKeys with
    | k :: ks => { s with openKey := k, outerKeys := ks }
    | [] => s
  .ok ({ s with keyAllowed := false }.sign kind)

def documentSign (s : Scanner) (kind : TokenKind) : Except Fault Scanner := do
  let s ← (s.unindent 0).dropKey
  .ok ({ s with keyAllowed := false }.sign kind 3)

def finish (s : Scanner) : Except Fault Scanner := do
  let m := s.mark
  let m := if m.column = 0 then m else m.down 0
  let s ← ({ s with cursor := { s.cursor with mark := m } }.unindent 0).dropKey
  .ok { s.push .streamEnd m with keyAllowed := false, ended := true }

def directive (s : Scanner) : Except Fault Scanner := do
  let s ← (s.unindent 0).dropKey
  let (kind, c) ← Yaml.directive s.cursor
  .ok { s.push kind s.mark with cursor := c, keyAllowed := false }

def flowEntry (s : Scanner) : Except Fault Scanner := do
  let s ← s.dropKey
  .ok ({ s with keyAllowed := true }.sign .flowEntry)

def ensurePlace (s : Scanner) (p : Problem) : Except Fault Unit :=
  if s.inFlow || s.keyAllowed then .ok () else .error (.misplaced p s.mark none)

def blockEntry (s : Scanner) : Except Fault Scanner := do
  s.ensurePlace .sequenceEntryPlace
  let s ← (s.indent s.mark.column none .blockSequenceStart s.mark).dropKey
  .ok ({ s with keyAllowed := true }.sign .blockEntry)

def key (s : Scanner) : Except Fault Scanner := do
  s.ensurePlace .keyPlace
  let s ← (s.indent s.mark.column none .blockMappingStart s.mark).dropKey
  .ok ({ s with keyAllowed := !s.inFlow }.sign (.key true))

def value (s : Scanner) : Except Fault Scanner := do
  match s.openKey with
  | some k =>
    let s := (s.insert k.number (.key false) k.mark).indent k.mark.column (some k.number)
      .blockMappingStart k.mark
    .ok ({ s with openKey := none, keyAllowed := false }.sign .value)
  | none =>
    s.ensurePlace .valuePlace
    let s := s.indent s.mark.column none .blockMappingStart s.mark
    .ok ({ s with keyAllowed := !s.inFlow }.sign .value)

def anchor (s : Scanner) (isAlias : Bool) : Except Fault Scanner := do
  let s ← s.saveKey
  let (name, c) ← anchorName s.cursor (if isAlias then .alias else .anchor)
  .ok { s.push (if isAlias then .alias name else .anchor name) s.mark with
    cursor := c, keyAllowed := false }

def tag (s : Scanner) : Except Fault Scanner := do
  let s ← s.saveKey
  let (kind, c) ← Yaml.tag s.cursor s.inFlow
  .ok { s.push kind s.mark with cursor := c, keyAllowed := false }

def blockScalar (s : Scanner) : Except Fault Scanner := do
  let s ← s.dropKey
  let (kind, c) ← Yaml.blockScalar s.cursor s.margin
  .ok { s.push kind s.mark with cursor := c, keyAllowed := true }

def quotedScalar (s : Scanner) (single : Bool) : Except Fault Scanner := do
  let s ← s.saveKey
  let (kind, c) ← Yaml.quotedScalar s.cursor single
  .ok { s.push kind s.mark with cursor := c, keyAllowed := false }

def plainScalar (s : Scanner) : Except Fault Scanner := do
  let s ← s.saveKey
  let (kind, c, brokeLine) ← Yaml.plainScalar s.cursor s.inFlow s.margin
  .ok { s.push kind s.mark with cursor := c, keyAllowed := brokeLine }

/-- Signs that begin no plain scalar, unless a character follows that makes one of them. -/
def isIndicator (c : Char) : Bool :=
  ['-', '?', ':', ',', '[', ']', '\x7b', '\x7d', '#', '&', '*', '!', '|', '>', '\'', '"', '%', '@',
    '`'].contains c

def startsPlain (s : Scanner) : Bool :=
  let c := s.cursor.peek
  let next := s.cursor.peekAt 1
  !(isGap c || isIndicator c) || (c == '-' && !isSpaceOrTab next) ||
    (!s.inFlow && (c == '?' || c == ':') && !isGap next)

def fetch (s : Scanner) : Except Fault Scanner := do
  let s ← s.skipToToken
  let s ← s.dropPastKeys
  let s := s.unindent (s.mark.column + 1)
  s.cursor.need 4
  let c := s.cursor.peek
  let next := s.cursor.peekAt 1
  if isEnd c then s.finish
  else if s.mark.column = 0 ∧ c = '%' then s.directive
  else if Cursor.atSign s.cursor.rest s.mark '-' then s.documentSign .documentStart
  else if Cursor.atSign s.cursor.rest s.mark '.' then s.documentSign .documentEnd
  else if c = '[' then s.openFlow .flowSequenceStart
  else if c = '\x7b' then s.openFlow .flowMappingStart
  else if c = ']' then s.closeFlow .flowSequenceEnd
  else if c = '\x7d' then s.closeFlow .flowMappingEnd
  else if c = ',' then s.flowEntry
  else if c = '-' ∧ isGap next then s.blockEntry
  else if c = '?' ∧ (s.inFlow ∨ isGap next) then s.key
  else if c = ':' ∧ (s.inFlow ∨ isGap next) then s.value
  else if c = '*' then s.anchor true
  else if c = '&' then s.anchor false
  else if c = '!' then s.tag
  else if (c = '|' ∨ c = '>') ∧ !s.inFlow then s.blockScalar
  else if c = '\'' then s.quotedScalar true
  else if c = '"' then s.quotedScalar false
  else if s.startsPlain then s.plainScalar
  else s.cursor.fail .noToken .token s.mark

def mayBeKey (s : Scanner) (n : Nat) : Bool :=
  (s.openKey :: s.outerKeys).any fun k => k.any (·.number == n)

def run : Nat → Scanner → List Token × Option Fault
  | 0, _ => ([], none)
  | fuel + 1, s =>
    match s.waiting with
    | t :: ts =>
      match s.dropPastKeys with
      | .error f => ([], some f)
      | .ok s =>
        if s.mayBeKey s.given then
          match s.fetch with
          | .error f => ([], some f)
          | .ok s => run fuel s
        else
          let (rest, f) := run fuel { s with waiting := ts, given := s.given + 1 }
          (t :: rest, f)
    | [] =>
      if s.ended then ([], none)
      else
        match s.fetch with
        | .error f => ([], some f)
        | .ok s => run fuel s

end Scanner

/-- The tokens of a text before its first fault, and that fault. A character brings at most four
tokens, and each token takes at most two steps. -/
def tokens (s : Source) : List Token × Option Fault :=
  Scanner.run (8 * s.chars.length + 16) { cursor := .ofSource s }

end ResourceManifest.Yaml
