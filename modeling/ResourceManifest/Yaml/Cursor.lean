import ResourceManifest.Yaml.Source

set_option autoImplicit false

namespace ResourceManifest.Yaml

def isWordChar (c : Char) : Bool := c.isAlphanum || c == '_' || c == '-'

def isSpaceOrTab (c : Char) : Bool := c == ' ' || c == '\t'

def isBreak (c : Char) : Bool :=
  c == '\n' || c == '\r' || c == '\x85' || c == '\u2028' || c == '\u2029'

def isEnd (c : Char) : Bool := c == '\x00'

def isBreakOrEnd (c : Char) : Bool := isBreak c || isEnd c

def isGap (c : Char) : Bool := isSpaceOrTab c || isBreakOrEnd c

def isHexDigit (c : Char) : Bool :=
  c.isDigit || ('a' ≤ c && c ≤ 'f') || ('A' ≤ c && c ≤ 'F')

def hexDigitValue (c : Char) : Nat :=
  if c.isDigit then c.toNat - '0'.toNat
  else if 'a' ≤ c then c.toNat - 'a'.toNat + 10
  else c.toNat - 'A'.toNat + 10

def breakValue (c : Char) : Char := if c = '\u2028' ∨ c = '\u2029' then c else '\n'

structure Cursor where
  rest : List Char
  mark : Mark
  fault? : Option Fault
  deriving Repr, Inhabited

namespace Cursor

def ofSource (s : Source) : Cursor := ⟨s.chars, {}, s.fault?⟩

/-- Whether `n` characters, or the end of the text, can be seen in `rest`. -/
def look (fault? : Option Fault) (rest : List Char) (n : Nat) : Except Fault Unit :=
  match fault? with
  | some f => if (rest.drop (n - 1)).isEmpty then .error f else .ok ()
  | none => .ok ()

def need (c : Cursor) (n : Nat) : Except Fault Unit := look c.fault? c.rest n

def peek (c : Cursor) : Char := c.rest.headD '\x00'

def peekAt (c : Cursor) (n : Nat) : Char := (c.rest.drop n).headD '\x00'

def skip (c : Cursor) (n : Nat := 1) : Cursor :=
  { c with rest := c.rest.drop n, mark := c.mark.right n }

def skipWhile (c : Cursor) (p : Char → Bool) : Cursor :=
  { c with rest := c.rest.dropWhile p, mark := c.mark.right (c.rest.takeWhile p).length }

def takeWhile (c : Cursor) (p : Char → Bool) : List Char := c.rest.takeWhile p

def skipBreak (c : Cursor) : Cursor :=
  match c.rest with
  | '\r' :: '\n' :: r => { c with rest := r, mark := c.mark.down 2 }
  | _ :: r => { c with rest := r, mark := c.mark.down 1 }
  | [] => c

def skipLineEnd (c : Cursor) : Except Fault Cursor := do
  let c := c.skipWhile isSpaceOrTab
  c.need 1
  if c.peek = '#' then
    let c := c.skipWhile (!isBreakOrEnd ·)
    c.need 1
    .ok c
  else .ok c

def atSign (rest : List Char) (mark : Mark) (sign : Char) : Bool :=
  mark.column == 0 && rest.take 3 == [sign, sign, sign] && isGap ((rest.drop 3).headD '\x00')

def atDocumentSign (rest : List Char) (mark : Mark) : Bool :=
  atSign rest mark '-' || atSign rest mark '.'

def fail {α : Type} (c : Cursor) (p : Problem) (a : Activity) (start : Mark) : Except Fault α :=
  .error (.misplaced p c.mark (some (a, start)))

end Cursor

end ResourceManifest.Yaml
