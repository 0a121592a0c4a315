import ResourceManifest.Text.Printable
import ResourceManifest.Text.Utf8

set_option autoImplicit false

namespace ResourceManifest

def hexDigits (n : Nat) : List Char := Nat.toDigits 16 n

def quotedChar (c : Char) : List Char :=
  if c = '\x00' then ['\\', '0']
  else if c = '\t' then ['\\', 't']
  else if c = '\r' then ['\\', 'r']
  else if c = '\n' then ['\\', 'n']
  else if c = '"' ∨ c = '\\' then ['\\', c]
  else if isExtending c || !isPrintable c then
    ['\\', 'u', '\x7b'] ++ hexDigits c.toNat ++ ['\x7d']
  else [c]

def quotedByte (b : UInt8) : List Char :=
  ['\\', 'x', (Nat.digitChar (b.toNat / 16)).toUpper, (Nat.digitChar (b.toNat % 16)).toUpper]

def quotedPart : Utf8.Part → List Char
  | .char c => quotedChar c
  | .broken bs => bs.flatMap quotedByte

def quoted (s : String) : String :=
  String.ofList ('"' :: s.toList.flatMap quotedChar ++ ['"'])

def quotedBytes (bs : Bytes) : String :=
  String.ofList ('"' :: (Utf8.read bs).flatMap quotedPart ++ ['"'])

end ResourceManifest
