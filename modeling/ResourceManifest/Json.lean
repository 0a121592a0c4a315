/-!
The JSON documents of this program: strings, arrays and objects, written compactly or over
indented lines. Only quotes, backslashes and control characters are escaped.
-/

set_option autoImplicit false

namespace ResourceManifest

inductive Json where
  | str : String → Json
  | arr : List Json → Json
  | obj : List (String × Json) → Json
  deriving Repr, Inhabited

namespace Json

def escape (c : Char) : List Char :=
  if c = '"' ∨ c = '\\' then ['\\', c]
  else if c = '\x08' then ['\\', 'b']
  else if c = '\x0c' then ['\\', 'f']
  else if c = '\n' then ['\\', 'n']
  else if c = '\r' then ['\\', 'r']
  else if c = '\t' then ['\\', 't']
  else if c.toNat < 0x20 then
    ['\\', 'u', '0', '0', Nat.digitChar (c.toNat / 16), Nat.digitChar (c.toNat % 16)]
  else [c]

def writeString (s : String) : List Char := '"' :: s.toList.flatMap escape ++ ['"']

mutual
def write : Json → List Char
  | str s => writeString s
  | arr [] => ['[', ']']
  | arr (v :: vs) => '[' :: write v ++ writeMore vs
  | obj [] => ['\x7b', '\x7d']
  | obj ((k, v) :: ms) => '\x7b' :: writeString k ++ ':' :: write v ++ writeMembers ms

def writeMore : List Json → List Char
  | [] => [']']
  | v :: vs => ',' :: write v ++ writeMore vs

def writeMembers : List (String × Json) → List Char
  | [] => ['\x7d']
  | (k, v) :: ms => ',' :: writeString k ++ ':' :: write v ++ writeMembers ms
end

def newLine (level : Nat) : List Char := '\n' :: List.replicate (2 * level) ' '

mutual
/-- One item to a line, `level` levels deep; an empty array or object stays on its line. -/
def writeLines (level : Nat) : Json → List Char
  | str s => writeString s
  | arr [] => ['[', ']']
  | arr (v :: vs) =>
    '[' :: newLine (level + 1) ++ writeLines (level + 1) v ++ writeMoreLines level vs
  | obj [] => ['\x7b', '\x7d']
  | obj ((k, v) :: ms) =>
    '\x7b' :: newLine (level + 1) ++ writeString k ++ [':', ' '] ++ writeLines (level + 1) v ++
      writeMemberLines level ms

def writeMoreLines (level : Nat) : List Json → List Char
  | [] => newLine level ++ [']']
  | v :: vs =>
    ',' :: newLine (level + 1) ++ writeLines (level + 1) v ++ writeMoreLines level vs

def writeMemberLines (level : Nat) : List (String × Json) → List Char
  | [] => newLine level ++ ['\x7d']
  | (k, v) :: ms =>
    ',' :: newLine (level + 1) ++ writeString k ++ [':', ' '] ++ writeLines (level + 1) v ++
      writeMemberLines level ms
end

def compact (v : Json) : String := String.ofList v.write

def pretty (v : Json) : String := String.ofList (v.writeLines 0)

def strings (ss : List String) : Json := .arr (ss.map .str)

end Json

end ResourceManifest
