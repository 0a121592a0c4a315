set_option autoImplicit false

namespace ResourceManifest

inductive Style where
  | plain | bold | dimmed | italic | green | yellow | blue
  /-- Bold and underlined. -/
  | heading
  /-- Bold and red. -/
  | alarm
  deriving DecidableEq, Repr

namespace Style

def codes : Style → List String
  | .plain => []
  | .bold => ["1"]
  | .dimmed => ["2"]
  | .italic => ["3"]
  | .green => ["32"]
  | .yellow => ["33"]
  | .blue => ["34"]
  | .heading => ["1", "4"]
  | .alarm => ["1", "31"]

def opening (style : Style) : List Char :=
  style.codes.flatMap fun c => ['\x1b', '['] ++ c.toList ++ ['m']

def reset : List Char := ['\x1b', '[', '0', 'm']

def wrap (color : Bool) (style : Style) (text : String) : String :=
  if color && style != .plain then String.ofList (style.opening ++ text.toList ++ reset) else text

def reopen (style : Style) : List Char → List Char
  | '\x1b' :: '[' :: '0' :: 'm' :: r => reset ++ style.opening ++ reopen style r
  | c :: r => c :: reopen style r
  | [] => []

def wrapNested (color : Bool) (style : Style) (text : String) : String :=
  if color then style.wrap true (String.ofList (style.reopen text.toList)) else text

end Style

abbrev Styled := List (Style × String)

def Styled.render (color : Bool) (pieces : Styled) : String :=
  String.join (pieces.map fun p => p.1.wrap color p.2)

/-- Escape sequences: the characters behind an escape, up to the one that ends them. -/
def dropSequence : List Char → List Char
  | '[' :: r => (r.dropWhile fun c => !(0x40 ≤ c.toNat && c.toNat ≤ 0x7E)).drop 1
  | r => r.drop 1

def isShown (c : Char) : Bool :=
  (0x20 ≤ c.toNat && c.toNat ≠ 0x7F) || c == '\t' || c == '\n' || c == '\x0c' || c == '\r'

def stripControls : Nat → List Char → List Char
  | 0, _ => []
  | _, [] => []
  | fuel + 1, c :: r =>
    if c = '\x1b' then stripControls fuel (dropSequence r)
    else if isShown c then c :: stripControls fuel r
    else stripControls fuel r

/-- A text on an output without colour: no styles, and no control characters that it brings. -/
def Styled.plainText (pieces : Styled) : String :=
  let text := (pieces.render false).toList
  String.ofList (stripControls text.length text)

end ResourceManifest
