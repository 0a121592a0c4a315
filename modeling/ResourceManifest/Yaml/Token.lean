import ResourceManifest.Yaml.Scalar

set_option autoImplicit false

namespace ResourceManifest.Yaml

inductive TokenKind where
  | streamEnd | documentStart | documentEnd
  | versionDirective (major minor : Nat)
  | tagDirective (handle : List Char) (uri : Bytes)
  | blockSequenceStart | blockMappingStart | blockEnd
  | flowSequenceStart | flowSequenceEnd | flowMappingStart | flowMappingEnd
  | blockEntry | flowEntry | value
  /-- A key, announced by its sign or recognised by the value that follows it. -/
  | key (signed : Bool)
  | alias (name : List Char)
  | anchor (name : List Char)
  | tag (handle : List Char) (suffix : Bytes)
  | scalar (style : ScalarStyle) (text : List Char)
  deriving DecidableEq, Repr

structure Token where
  kind : TokenKind
  mark : Mark
  deriving DecidableEq, Repr

def Token.behind (t : Token) : Mark :=
  if t.kind = .key false then t.mark else t.mark.right

end ResourceManifest.Yaml
