set_option autoImplicit false

namespace ResourceManifest.Yaml

/-- A position: characters before it, line and column, all from zero. -/
structure Mark where
  index : Nat := 0
  line : Nat := 0
  column : Nat := 0
  deriving DecidableEq, Repr, Inhabited

namespace Mark

def right (m : Mark) (n : Nat := 1) : Mark := ⟨m.index + n, m.line, m.column + n⟩

def down (m : Mark) (n : Nat) : Mark := ⟨m.index + n, m.line + 1, 0⟩

def isOrigin (m : Mark) : Bool := m.line == 0 && m.column == 0

def text (m : Mark) : String :=
  "line " ++ (m.line + 1).repr ++ " column " ++ (m.column + 1).repr

def suffix (m : Mark) : String := if m.isOrigin then "" else " at " ++ m.text

end Mark

inductive ReadProblem where
  | leadingOctet | trailingOctet | sequenceLength | character | controlCharacter | incomplete
  deriving DecidableEq, Repr

def ReadProblem.text : ReadProblem → String
  | .leadingOctet => "invalid leading UTF-8 octet"
  | .trailingOctet => "invalid trailing UTF-8 octet"
  | .sequenceLength => "invalid length of a UTF-8 sequence"
  | .character => "invalid Unicode character"
  | .controlCharacter => "control characters are not allowed"
  | .incomplete => "incomplete UTF-8 octet sequence"

inductive Activity where
  | simpleKey | directive | versionDirective | tagDirective | tagDirectiveUri
  | tagDirectiveHandle | tagDirectiveName | tagHandle | tagUri | anchor | alias
  | blockScalar | quotedScalar | escape | plainScalar | token
  | node | blockNode | flowNode | blockSequence | blockMapping | flowSequence | flowMapping
  deriving DecidableEq, Repr

def Activity.text : Activity → String
  | .simpleKey => "while scanning a simple key"
  | .directive => "while scanning a directive"
  | .versionDirective => "while scanning a %YAML directive"
  | .tagDirective => "while scanning a %TAG directive"
  | .tagDirectiveUri => "while parsing a %TAG directive"
  | .tagDirectiveHandle => "while scanning a tag directive"
  | .tagDirectiveName => "while parsing a tag directive"
  | .tagHandle => "while scanning a tag"
  | .tagUri => "while parsing a tag"
  | .anchor => "while scanning an anchor"
  | .alias => "while scanning an alias"
  | .blockScalar => "while scanning a block scalar"
  | .quotedScalar => "while scanning a quoted scalar"
  | .escape => "while parsing a quoted scalar"
  | .plainScalar => "while scanning a plain scalar"
  | .token => "while scanning for the next token"
  | .node => "while parsing a node"
  | .blockNode => "while parsing a block node"
  | .flowNode => "while parsing a flow node"
  | .blockSequence => "while parsing a block collection"
  | .blockMapping => "while parsing a block mapping"
  | .flowSequence => "while parsing a flow sequence"
  | .flowMapping => "while parsing a flow mapping"

inductive Problem where
  | noColon | noDirectiveName | unknownDirective | directiveNameCharacter | directiveEnd
  | longVersion | noVersion | noVersionPoint | noTagSpace | noTagEnd | noTagMark | noTagUri
  | noTagClose | uriEscape | uriLeadingOctet | uriTrailingOctet | noAnchorName
  | zeroIndentation | scalarHeaderEnd | tabIndentation
  | documentIndicator | endOfText | unknownEscape | noHexDigit | badEscapeCode
  | flowColon | tabInMargin | noToken
  | sequenceEntryPlace | keyPlace | valuePlace
  | noDocumentStart | undefinedTagHandle | duplicateVersion | badVersion | duplicateTagHandle
  | noNodeContent | noEntry | noKey | noSequenceEnd | noMappingEnd
  deriving DecidableEq, Repr

def Problem.text : Problem → String
  | .noColon => "could not find expected ':'"
  | .noDirectiveName => "could not find expected directive name"
  | .unknownDirective => "found unknown directive name"
  | .directiveNameCharacter => "found unexpected non-alphabetical character"
  | .directiveEnd => "did not find expected comment or line break"
  | .longVersion => "found extremely long version number"
  | .noVersion => "did not find expected version number"
  | .noVersionPoint => "did not find expected digit or '.' character"
  | .noTagSpace => "did not find expected whitespace"
  | .noTagEnd => "did not find expected whitespace or line break"
  | .noTagMark => "did not find expected '!'"
  | .noTagUri => "did not find expected tag URI"
  | .noTagClose => "did not find the expected '>'"
  | .uriEscape => "did not find URI escaped octet"
  | .uriLeadingOctet => "found an incorrect leading UTF-8 octet"
  | .uriTrailingOctet => "found an incorrect trailing UTF-8 octet"
  | .noAnchorName => "did not find expected alphabetic or numeric character"
  | .zeroIndentation => "found an indentation indicator equal to 0"
  | .scalarHeaderEnd => "did not find expected comment or line break"
  | .tabIndentation => "found a tab character where an indentation space is expected"
  | .documentIndicator => "found unexpected document indicator"
  | .endOfText => "found unexpected end of stream"
  | .unknownEscape => "found unknown escape character"
  | .noHexDigit => "did not find expected hexadecimal number"
  | .badEscapeCode => "found invalid Unicode character escape code"
  | .flowColon => "found unexpected ':'"
  | .tabInMargin => "found a tab character that violates indentation"
  | .noToken => "found character that cannot start any token"
  | .sequenceEntryPlace => "block sequence entries are not allowed in this context"
  | .keyPlace => "mapping keys are not allowed in this context"
  | .valuePlace => "mapping values are not allowed in this context"
  | .noDocumentStart => "did not find expected <document start>"
  | .undefinedTagHandle => "found undefined tag handle"
  | .duplicateVersion => "found duplicate %YAML directive"
  | .badVersion => "found incompatible YAML document"
  | .duplicateTagHandle => "found duplicate %TAG directive"
  | .noNodeContent => "did not find expected node content"
  | .noEntry => "did not find expected '-' indicator"
  | .noKey => "did not find expected key"
  | .noSequenceEnd => "did not find expected ',' or ']'"
  | .noMappingEnd => "did not find expected ',' or '\x7d'"

/-- A fault in the form of a text: bytes that are no characters, or characters out of place. -/
inductive Fault where
  | unreadable (problem : ReadProblem) (offset : Nat)
  | misplaced (problem : Problem) (place : Mark) (context : Option (Activity × Mark))
  deriving DecidableEq, Repr

/-- The context's position is named only where it differs from the problem's. -/
def Fault.text : Fault → String
  | .unreadable p 0 => p.text
  | .unreadable p n => p.text ++ " at position " ++ n.repr
  | .misplaced p m none => p.text ++ m.suffix
  | .misplaced p m (some (a, start)) =>
    p.text ++ m.suffix ++ ", " ++ a.text ++
      (if start.line = m.line ∧ start.column = m.column then "" else start.suffix)

end ResourceManifest.Yaml
