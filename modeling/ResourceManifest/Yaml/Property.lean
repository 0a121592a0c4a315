import ResourceManifest.Yaml.Token

set_option autoImplicit false

namespace ResourceManifest.Yaml

def isUriChar (c : Char) : Bool :=
  isWordChar c || [';', '/', '?', ':', '@', '&', '=', '+', '$', '.', '%', '!', '~', '*', '\'', '(',
    ')'].contains c

def isFlowUriChar (c : Char) : Bool := c == ',' || c == '[' || c == ']'

def continuationCount? (octet : Nat) : Option Nat :=
  if octet < 0x80 then some 0
  else if octet < 0xC0 then none
  else if octet < 0xE0 then some 1
  else if octet < 0xF0 then some 2
  else if octet < 0xF8 then some 3
  else none

structure ReadUri where
  bytes : Bytes
  rest : List Char
  mark : Mark

/-- The characters and escaped octets of a URI; `owed` octets are missing to a character. -/
def readUri (fault? : Option Fault) (activity : Activity) (start : Mark) (flowChars : Bool) :
    List Char → Mark → Nat → Bytes → Except Fault ReadUri
  | [], m, owed, acc =>
    match fault? with
    | some f => .error f
    | none =>
      if owed = 0 then .ok ⟨acc.reverse, [], m⟩
      else .error (.misplaced .uriEscape m (some (activity, start)))
  | c :: r, m, owed, acc => do
    let fail := fun p => Except.error (Fault.misplaced p m (some (activity, start)))
    if c = '%' ∨ owed ≠ 0 then
      Cursor.look fault? (c :: r) 3
      match r with
      | a :: b :: r₃ =>
        if c = '%' ∧ isHexDigit a ∧ isHexDigit b then
          let octet := hexDigitValue a * 16 + hexDigitValue b
          let next := readUri fault? activity start flowChars r₃ (m.right 3)
          if owed = 0 then
            match continuationCount? octet with
            | some n => next n (UInt8.ofNat octet :: acc)
            | none => fail .uriLeadingOctet
          else if 0x80 ≤ octet ∧ octet < 0xC0 then next (owed - 1) (UInt8.ofNat octet :: acc)
          else fail .uriTrailingOctet
        else fail .uriEscape
      | _ => fail .uriEscape
    else if isUriChar c || (flowChars && isFlowUriChar c) then
      readUri fault? activity start flowChars r m.right 0 (UInt8.ofNat c.toNat :: acc)
    else .ok ⟨acc.reverse, c :: r, m⟩

/-- A URI at the cursor, behind the octets of `already`; it is empty only if `mayBeEmpty`. -/
def uri (c : Cursor) (inDirective flowChars mayBeEmpty : Bool) (already : Bytes) (start : Mark) :
    Except Fault (Bytes × Cursor) := do
  let activity := if inDirective then Activity.tagDirectiveUri else .tagUri
  c.need 1
  let u ← readUri c.fault? activity start flowChars c.rest c.mark 0 []
  let behind := { c with rest := u.rest, mark := u.mark }
  if u.mark = c.mark ∧ !mayBeEmpty then behind.fail .noTagUri activity start
  else .ok (already ++ u.bytes, behind)

/-- An exclamation mark, with a word and a second one behind it if there is a second one. -/
def tagHandle (c : Cursor) (inDirective : Bool) (start : Mark) :
    Except Fault (List Char × Cursor) := do
  c.need 1
  if c.peek ≠ '!' then
    c.fail .noTagMark (if inDirective then .tagDirectiveHandle else .tagHandle) start
  else
    let c := c.skip
    c.need 1
    let word := c.takeWhile isWordChar
    let c := c.skipWhile isWordChar
    c.need 1
    if c.peek = '!' then .ok ('!' :: word ++ ['!'], c.skip)
    else if inDirective ∧ word ≠ [] then c.fail .noTagMark .tagDirectiveName start
    else .ok ('!' :: word, c)

def tag (c : Cursor) (inFlow : Bool) : Except Fault (TokenKind × Cursor) := do
  let start := c.mark
  c.need 2
  let (kind, c) ← if c.peekAt 1 = '<' then do
      let (suffix, c) ← uri (c.skip 2) false true false [] start
      if c.peek ≠ '>' then c.fail .noTagClose .tagHandle start
      else .ok (TokenKind.tag [] suffix, c.skip)
    else do
      let (handle, c) ← tagHandle c false start
      if 1 < handle.length ∧ handle.getLast? = some '!' then
        let (suffix, c) ← uri c false false false [] start
        .ok (TokenKind.tag handle suffix, c)
      else
        let (suffix, c) ← uri c false false true (Utf8.encodeChars (handle.drop 1)) start
        if suffix = [] then .ok (TokenKind.tag [] (Utf8.encodeChars ['!']), c)
        else .ok (TokenKind.tag ['!'] suffix, c)
  c.need 1
  if isGap c.peek ∨ (inFlow ∧ c.peek = ',') then .ok (kind, c)
  else c.fail .noTagEnd .tagHandle start

def anchorName (c : Cursor) (activity : Activity) : Except Fault (List Char × Cursor) := do
  let start := c.mark
  let c := c.skip
  c.need 1
  let name := c.takeWhile isWordChar
  let c := c.skipWhile isWordChar
  c.need 1
  if name ≠ [] ∧ (isGap c.peek ∨ c.peek ∈ ['?', ':', ',', ']', '\x7d', '%', '@', '`']) then
    .ok (name, c)
  else c.fail .noAnchorName activity start

def versionNumber (c : Cursor) (start : Mark) : Except Fault (Nat × Cursor) := do
  c.need 1
  let digits := c.takeWhile Char.isDigit
  let behind := c.skipWhile Char.isDigit
  if 9 < digits.length then (c.skip 9).fail .longVersion .versionDirective start
  else
    behind.need 1
    if digits = [] then c.fail .noVersion .versionDirective start
    else .ok (digits.foldl (fun v d => v * 10 + hexDigitValue d) 0, behind)

def skipBlanks (c : Cursor) : Except Fault Cursor := do
  c.need 1
  let c := c.skipWhile isSpaceOrTab
  c.need 1
  .ok c

def versionDirective (c : Cursor) (start : Mark) : Except Fault (TokenKind × Cursor) := do
  let c ← skipBlanks c
  let (major, c) ← versionNumber c start
  if c.peek ≠ '.' then c.fail .noVersionPoint .versionDirective start
  else
    let (minor, c) ← versionNumber c.skip start
    .ok (.versionDirective major minor, c)

def tagDirective (c : Cursor) (start : Mark) : Except Fault (TokenKind × Cursor) := do
  let c ← skipBlanks c
  let (handle, c) ← tagHandle c true start
  c.need 1
  if !isSpaceOrTab c.peek then c.fail .noTagSpace .tagDirective start
  else
    let c ← skipBlanks c
    let (prefixUri, c) ← uri c true true false [] start
    c.need 1
    if !isGap c.peek then c.fail .noTagEnd .tagDirective start
    else .ok (.tagDirective handle prefixUri, c)

def directive (c : Cursor) : Except Fault (TokenKind × Cursor) := do
  let start := c.mark
  let c := c.skip
  c.need 1
  let name := c.takeWhile isWordChar
  let c := c.skipWhile isWordChar
  c.need 1
  if name = [] then c.fail .noDirectiveName .directive start
  else if !isGap c.peek then c.fail .directiveNameCharacter .directive start
  else
    let (kind, c) ←
      if name = "YAML".toList then versionDirective c start
      else if name = "TAG".toList then tagDirective c start
      else c.fail .unknownDirective .directive start
    c.need 1
    let c ← c.skipLineEnd
    if !isBreakOrEnd c.peek then c.fail .directiveEnd .directive start
    else if isBreak c.peek then
      c.need 2
      .ok (kind, c.skipBreak)
    else .ok (kind, c)

/-- The signs of a block scalar's first line: how it ends and how far it is indented. -/
structure BlockHeader where
  folded : Bool
  chomping : Chomping := .clip
  increment : Nat := 0

def chomping? (c : Char) : Option Chomping :=
  if c = '+' then some .keep else if c = '-' then some .strip else none

def blockHeader (c : Cursor) (start : Mark) : Except Fault (BlockHeader × Cursor) := do
  let folded := c.peek = '>'
  let c := c.skip
  c.need 1
  match chomping? c.peek with
  | some chomping =>
    let c := c.skip
    c.need 1
    if c.peek = '0' then c.fail .zeroIndentation .blockScalar start
    else if c.peek.isDigit then .ok (⟨folded, chomping, hexDigitValue c.peek⟩, c.skip)
    else .ok (⟨folded, chomping, 0⟩, c)
  | none =>
    if c.peek = '0' then c.fail .zeroIndentation .blockScalar start
    else if c.peek.isDigit then
      let increment := hexDigitValue c.peek
      let c := c.skip
      c.need 1
      match chomping? c.peek with
      | some chomping => .ok (⟨folded, chomping, increment⟩, c.skip)
      | none => .ok (⟨folded, .clip, increment⟩, c)
    else .ok (⟨folded, .clip, 0⟩, c)

def blockScalar (c : Cursor) (margin : Nat) : Except Fault (TokenKind × Cursor) := do
  let start := c.mark
  let (header, c) ← blockHeader c start
  c.need 1
  let c ← c.skipLineEnd
  if !isBreakOrEnd c.peek then c.fail .scalarHeaderEnd .blockScalar start
  else
    let c ← if isBreak c.peek then do
        c.need 2
        pure c.skipBreak
      else pure c
    let indent := if header.increment = 0 then 0 else margin - 1 + header.increment
    let s ← readBlock c.fault? start header.folded header.chomping margin c.rest c.mark { indent }
    .ok (.scalar (if header.folded then .folded else .literal) s.text,
      { c with rest := s.rest, mark := s.mark })

def quotedScalar (c : Cursor) (single : Bool) : Except Fault (TokenKind × Cursor) := do
  let start := c.mark
  let c := c.skip
  c.need 4
  let s ← readQuoted c.fault? start single c.rest c.mark .none []
  .ok (.scalar (if single then .singleQuoted else .doubleQuoted) s.text,
    { c with rest := s.rest, mark := s.mark })

def plainScalar (c : Cursor) (inFlow : Bool) (margin : Nat) :
    Except Fault (TokenKind × Cursor × Bool) := do
  c.need 4
  let s ← readPlain c.fault? c.mark inFlow margin c.rest c.mark .none []
  .ok (.scalar .plain s.text, { c with rest := s.rest, mark := s.mark }, s.brokeLine)

end ResourceManifest.Yaml
