import ResourceManifest.Yaml.Cursor

/-!
Scalars as they are written: plain, between quotes, or as an indented block. Line breaks inside
plain and quoted scalars fold into a blank; a literal block keeps them.
-/

set_option autoImplicit false

namespace ResourceManifest.Yaml

inductive ScalarStyle where
  | plain | singleQuoted | doubleQuoted | literal | folded
  deriving DecidableEq, Repr, Inhabited

/-- Blanks or line breaks that have been read but may yet be dropped or folded. The characters
are in reverse; `lines` has its first break apart, which is missing if the break was escaped. -/
inductive Gap where
  | none
  | blanks : List Char → Gap
  | lines : Option Char → List Char → Gap
  deriving DecidableEq, Repr

namespace Gap

def blank (c : Char) : Gap → Gap
  | none => blanks [c]
  | blanks cs => blanks (c :: cs)
  | lines first more => lines first more

def line (c : Char) : Gap → Gap
  | lines first more => lines first (c :: more)
  | _ => lines (some c) []

def isNone : Gap → Bool
  | none => true
  | _ => false

def isLines : Gap → Bool
  | lines _ _ => true
  | _ => false

/-- A text in reverse with what the gap leaves of itself: blanks stay, one break becomes a
blank, further breaks stay. -/
def onto (text : List Char) : Gap → List Char
  | none => text
  | blanks cs => cs ++ text
  | lines (some '\n') [] => ' ' :: text
  | lines (some '\n') more => more ++ text
  | lines (some c) more => more ++ c :: text
  | lines Option.none more => more ++ text

end Gap

structure ReadScalar where
  text : List Char
  rest : List Char
  mark : Mark
  /-- Whether a line break came after the last character of the text. -/
  brokeLine : Bool := false
  deriving Repr

def escapeValue? (c : Char) : Option Char :=
  match c with
  | '0' => some '\x00'
  | 'a' => some '\x07'
  | 'b' => some '\x08'
  | 't' | '\t' => some '\t'
  | 'n' => some '\n'
  | 'v' => some '\x0b'
  | 'f' => some '\x0c'
  | 'r' => some '\r'
  | 'e' => some '\x1b'
  | ' ' => some ' '
  | '"' => some '"'
  | '/' => some '/'
  | '\\' => some '\\'
  | 'N' => some '\x85'
  | '_' => some '\xa0'
  | 'L' => some '\u2028'
  | 'P' => some '\u2029'
  | _ => none

def codeChar (ds : List Char) : Except Problem Char :=
  if ds.all isHexDigit then
    let n := ds.foldl (fun v d => v * 16 + hexDigitValue d) 0
    if n.isValidChar then .ok (Char.ofNat n) else .error .badEscapeCode
  else .error .noHexDigit

section
variable (fault? : Option Fault) (start : Mark)

def ensureNoSign (gap : Gap) (rest : List Char) (m : Mark) : Except Fault Unit :=
  if gap.isNone then .ok ()
  else do
    Cursor.look fault? rest 4
    if Cursor.atDocumentSign rest m then
      .error (.misplaced .documentIndicator m (some (.quotedScalar, start)))
    else .ok ()

def escapedCode (place : Mark) (n : Nat) (rest : List Char) : Except Fault Char := do
  Cursor.look fault? rest n
  if rest.length < n then .error (.misplaced .noHexDigit place (some (.escape, start)))
  else (codeChar (rest.take n)).mapError fun p => .misplaced p place (some (.escape, start))

/-- The text after an opening quote. Failures are passed on by cases, not by binding, so that each
recursive call stands at the end of its branch. -/
def readQuoted (single : Bool) :
    List Char → Mark → Gap → List Char → Except Fault ReadScalar
  | [], m, _, _ => .error (fault?.getD (.misplaced .endOfText m (some (.quotedScalar, start))))
  | c :: r, m, gap, text =>
    match Cursor.look fault? (c :: r) (if gap.isNone || isBreak c then 2 else 1) with
    | .error f => .error f
    | .ok () =>
      if isSpaceOrTab c then
        readQuoted single r m.right (gap.blank c) text
      else if isBreak c then
        match c, r with
        | '\r', '\n' :: r₂ => readQuoted single r₂ (m.down 2) (gap.line '\n') text
        | _, r => readQuoted single r (m.down 1) (gap.line (breakValue c)) text
      else
        match ensureNoSign fault? start gap (c :: r) m with
        | .error f => .error f
        | .ok () =>
          let text := gap.onto text
          if single then
            if c = '\'' then
              match r with
              | '\'' :: r₂ => readQuoted single r₂ (m.right 2) .none ('\'' :: text)
              | r => .ok ⟨text.reverse, r, m.right, false⟩
            else readQuoted single r m.right .none (c :: text)
          else if c = '"' then .ok ⟨text.reverse, r, m.right, false⟩
          else if c = '\\' then
            match r with
            | '\r' :: '\n' :: r₂ =>
              match Cursor.look fault? (c :: r) 3 with
              | .error f => .error f
              | .ok () => readQuoted single r₂ (m.right.down 2) (.lines none []) text
            | 'x' :: r₂ =>
              match escapedCode fault? start (m.right 2) 2 r₂, r₂ with
              | .error f, _ => .error f
              | .ok v, _ :: _ :: r₃ => readQuoted single r₃ (m.right 4) .none (v :: text)
              | .ok _, _ => .error (.misplaced .noHexDigit (m.right 2) (some (.escape, start)))
            | 'u' :: r₂ =>
              match escapedCode fault? start (m.right 2) 4 r₂, r₂ with
              | .error f, _ => .error f
              | .ok v, _ :: _ :: _ :: _ :: r₃ =>
                readQuoted single r₃ (m.right 6) .none (v :: text)
              | .ok _, _ => .error (.misplaced .noHexDigit (m.right 2) (some (.escape, start)))
            | 'U' :: r₂ =>
              match escapedCode fault? start (m.right 2) 8 r₂, r₂ with
              | .error f, _ => .error f
              | .ok v, _ :: _ :: _ :: _ :: _ :: _ :: _ :: _ :: r₃ =>
                readQuoted single r₃ (m.right 10) .none (v :: text)
              | .ok _, _ => .error (.misplaced .noHexDigit (m.right 2) (some (.escape, start)))
            | e :: r₂ =>
              if isBreak e then
                match Cursor.look fault? (c :: r) 3 with
                | .error f => .error f
                | .ok () => readQuoted single r₂ (m.right.down 1) (.lines none []) text
              else
                match escapeValue? e with
                | some v => readQuoted single r₂ (m.right 2) .none (v :: text)
                | none => .error (.misplaced .unknownEscape m (some (.escape, start)))
            | [] => .error (.misplaced .unknownEscape m (some (.escape, start)))
          else readQuoted single r m.right .none (c :: text)

def isFlowSign (c : Char) : Bool :=
  c == ',' || c == '[' || c == ']' || c == '\x7b' || c == '\x7d'

def readPlain (inFlow : Bool) (margin : Nat) :
    List Char → Mark → Gap → List Char → Except Fault ReadScalar
  | [], m, gap, text =>
    match fault? with
    | some f => .error f
    | none => .ok ⟨text.reverse, [], m, gap.isLines⟩
  | c :: r, m, gap, text => do
    Cursor.look fault? (c :: r) (if gap.isNone || isBreak c then 2 else 1)
    if isSpaceOrTab c then
      if gap.isLines && m.column < margin && c == '\t' then
        throw (.misplaced .tabInMargin m (some (.plainScalar, start)))
      readPlain inFlow margin r m.right (gap.blank c) text
    else if isBreak c then
      match c, r with
      | '\r', '\n' :: r₂ => readPlain inFlow margin r₂ (m.down 2) (gap.line '\n') text
      | _, r => readPlain inFlow margin r (m.down 1) (gap.line (breakValue c)) text
    else
      let done : ReadScalar := ⟨text.reverse, c :: r, m, gap.isLines⟩
      if !gap.isNone && !inFlow && m.column < margin then .ok done
      else
        if !gap.isNone then Cursor.look fault? (c :: r) 4
        if !gap.isNone && (Cursor.atDocumentSign (c :: r) m || c == '#') then .ok done
        else
          let next := r.headD '\x00'
          if inFlow && c == ':' && (isFlowSign next || next == '?') then
            .error (.misplaced .flowColon m (some (.plainScalar, start)))
          else if (c == ':' && isGap next) || (inFlow && isFlowSign c) then .ok done
          else readPlain inFlow margin r m.right .none (c :: gap.onto text)

theorem readQuoted_blank (start m : Mark) (single : Bool) (gap : Gap) (text r : List Char) :
    readQuoted none start single (' ' :: r) m gap text =
      readQuoted none start single r m.right (gap.blank ' ') text := by
  rw [readQuoted]
  · rfl
  · simp

theorem readPlain_blank (start m : Mark) (inFlow : Bool) (margin : Nat) (gap : Gap)
    (text r : List Char) :
    readPlain none start inFlow margin (' ' :: r) m gap text =
      readPlain none start inFlow margin r m.right (gap.blank ' ') text := by
  rw [readPlain]
  · have hblank : (' ' == '\t') = false := rfl
    simp [Cursor.look, bind, Except.bind, isSpaceOrTab, hblank]
  · simp

inductive Chomping where
  | strip | clip | keep
  deriving DecidableEq, Repr

/-- A block scalar as far as it is read: its text in reverse, the last line's break, the breaks
of empty lines after that, and the indentation, which is zero until it is known. -/
structure BlockText where
  indent : Nat
  deepest : Nat := 0
  inLine : Bool := false
  text : List Char := []
  lastBreak : Option Char := none
  emptyLines : List Char := []
  startsBlank : Bool := false
  deriving Repr

namespace BlockText

/-- The text as a new line begins with `c`; in a folded block a single break becomes a blank
unless one of the lines around it starts with one. -/
def openLine (folded : Bool) (c : Char) (s : BlockText) : BlockText :=
  let blank := isSpaceOrTab c
  let joined :=
    if folded && s.lastBreak == some '\n' && !s.startsBlank && !blank then
      if s.emptyLines.isEmpty then ' ' :: s.text else s.text
    else s.lastBreak.toList ++ s.text
  { s with
    inLine := true, text := c :: (s.emptyLines ++ joined), lastBreak := none, emptyLines := [],
    startsBlank := blank }

def closeLine (c : Char) (s : BlockText) : BlockText :=
  { s with inLine := false, deepest := 0, lastBreak := some c }

def addEmptyLine (c : Char) (s : BlockText) : BlockText :=
  { s with emptyLines := c :: s.emptyLines }

def finish (chomping : Chomping) (s : BlockText) : List Char :=
  match chomping with
  | .strip => s.text.reverse
  | .clip => (s.lastBreak.toList ++ s.text).reverse
  | .keep => (s.emptyLines ++ (s.lastBreak.toList ++ s.text)).reverse

end BlockText

/-- The lines of a block scalar whose parent has its content from column `margin` on. -/
def readBlock (folded : Bool) (chomping : Chomping) (margin : Nat) :
    List Char → Mark → BlockText → Except Fault ReadScalar
  | [], m, s =>
    match fault? with
    | some f => .error f
    | none => .ok ⟨s.finish chomping, [], m, false⟩
  | c :: r, m, s => do
    if isBreak c then
      Cursor.look fault? (c :: r) 2
    let unindented := s.indent = 0 || m.column < s.indent
    if s.inLine then
      if isBreak c then
        match c, r with
        | '\r', '\n' :: r₂ =>
          readBlock folded chomping margin r₂ (m.down 2) (s.closeLine '\n')
        | _, r => readBlock folded chomping margin r (m.down 1) (s.closeLine (breakValue c))
      else readBlock folded chomping margin r m.right { s with text := c :: s.text }
    else if unindented && c == ' ' then readBlock folded chomping margin r m.right s
    else
      let s := { s with deepest := max s.deepest m.column }
      if unindented && c == '\t' then
        .error (.misplaced .tabIndentation m (some (.blockScalar, start)))
      else if isBreak c then
        match c, r with
        | '\r', '\n' :: r₂ =>
          readBlock folded chomping margin r₂ (m.down 2) (s.addEmptyLine '\n')
        | _, r => readBlock folded chomping margin r (m.down 1) (s.addEmptyLine (breakValue c))
      else
        let indent := if s.indent = 0 then max (max s.deepest margin) 1 else s.indent
        let s := { s with indent }
        if m.column = indent then
          readBlock folded chomping margin r m.right (s.openLine folded c)
        else .ok ⟨s.finish chomping, c :: r, m, false⟩

end

end ResourceManifest.Yaml
