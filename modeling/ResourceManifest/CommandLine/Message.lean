import ResourceManifest.CommandLine.Arguments
import ResourceManifest.Report

set_option autoImplicit false

namespace ResourceManifest

namespace Flag

def about : Flag → String
  | .root => "Directory to scan for resources [default: .]"
  | .output => "Path of the JSON manifest to write [default: resources.json]"
  | .ext => "Allowed file extensions, overriding the preset"
  | .preset =>
    "Named extension set used when no --ext is given [default: assets] [possible values: images, assets]"
  | .config => "YAML file listing one or more jobs; replaces the single-job flags"
  | .atomic => "Write through a temp file and rename it over the output"
  | .followLinks => "Follow symbolic links while walking"
  | .respectIgnore => "Skip hidden files and honour .gitignore/.ignore files"
  | .json => "Output results in JSON format"
  | .help => "Print help"
  | .version => "Print version"

def styled (f : Flag) : Styled :=
  (.bold, f.spelled) :: match f.valueName? with
    | some v => [(.plain, " <" ++ v ++ ">")]
    | none => []

def aboutColumn : Nat := 26

def helpLine (f : Flag) : Styled :=
  let margin : Styled := match f.short? with
    | some c => [(.plain, "  "), (.bold, String.ofList ['-', c]), (.plain, ", ")]
    | none => [(.plain, "      ")]
  let pad := String.ofList (List.replicate (aboutColumn - 6 - f.shown.length) ' ')
  margin ++ f.styled ++ [(.plain, pad ++ f.about ++ "\n")]

end Flag

/-- The line that shows how the program is used, with the flags given if there are any. -/
def usage (used : List Flag) : Styled :=
  let start : Styled := [(.heading, "Usage:"), (.plain, " "), (.bold, Report.programName)]
  match used with
  | [] => start ++ [(.plain, " [OPTIONS]")]
  | fs => start ++ fs.flatMap fun f => (.plain, " ") :: f.styled

def helpText : Styled :=
  usage [] ++ [(.plain, "\n\n"), (.heading, "Options:"), (.plain, "\n")] ++
    Flag.all.flatMap Flag.helpLine

def versionText : Styled := [(.plain, Report.programName ++ " " ++ Report.programVersion ++ "\n")]

namespace Misuse

def presetValues : Styled :=
  (.plain, "\n  [possible values: ") ::
    ((Preset.all.map fun p => (Style.green, p.name)).intersperse (.plain, ", ")) ++ [(.plain, "]")]

def tip (kind : String) (meant : String) : Styled :=
  [(.plain, "\n\n  "), (.green, "tip:"), (.plain, " a similar " ++ kind ++ " exists: '"),
    (.green, meant), (.plain, "'")]

def body : Misuse → Styled
  | .unexpected none _ _ =>
    [(.plain, "invalid UTF-8 was detected in one or more arguments")]
  | .unexpected (some w) meant? _ =>
    [(.plain, "unexpected argument '"), (.yellow, w), (.plain, "' found")] ++
      match meant? with
      | some f => tip "argument" f.spelled
      | none => []
  | .repeated f =>
    [(.plain, "the argument '"), (.yellow, f.shown),
      (.plain, "' cannot be used multiple times")]
  | .noValue f =>
    [(.plain, "a value is required for '"), (.bold, f.shown),
      (.plain, "' but none was supplied")] ++ if f = .preset then presetValues else []
  | .unknownPreset v =>
    [(.plain, "invalid value '"), (.yellow, v), (.plain, "' for '"),
      (.bold, Flag.preset.shown), (.plain, "'")] ++ presetValues ++
      match Similarity.closest? v Preset.name Preset.all with
      | some p => tip "value" p.name
      | none => []
  | .needlessValue f v _ =>
    [(.plain, "unexpected value '"), (.yellow, v), (.plain, "' for '"), (.bold, f.shown),
      (.plain, "' found; no more were expected")]

def usageLine : Misuse → Styled
  | .unexpected _ _ used => (.plain, "\n\n") :: usage used
  | .repeated _ => (.plain, "\n\n") :: usage []
  | .needlessValue _ _ used => (.plain, "\n\n") :: usage used
  | _ => []

def text (m : Misuse) : Styled :=
  [(.alarm, "error:"), (.plain, " ")] ++ m.body ++ m.usageLine ++
    [(.plain, "\n\nFor more information, try '"), (.bold, "--help"), (.plain, "'.\n")]

end Misuse

namespace Refusal

def text : Refusal → Styled
  | .help => helpText
  | .version => versionText
  | .misuse m => m.text

def exitCode : Refusal → Nat
  | .misuse _ => 2
  | _ => 0

end Refusal

end ResourceManifest
