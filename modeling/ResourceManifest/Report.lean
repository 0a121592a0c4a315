import ResourceManifest.Job
import ResourceManifest.Json
import ResourceManifest.Text.Style

set_option autoImplicit false

namespace ResourceManifest

namespace Report

def programName : String := "resource-lister"
def programVersion : String := "0.1.0"

def countText (color : Bool) : Nat → String
  | 0 => Style.yellow.wrapNested color "0 resources"
  | 1 => Style.green.wrapNested color "1 resource"
  | n => Style.green.wrapNested color (n.repr ++ " resources")

def listingLines (color : Bool) (l : Listing) : String :=
  Style.bold.wrapNested color "›" ++ " " ++ Style.bold.wrapNested color l.output ++ "  " ++
    countText color l.entries.length ++ "\n  " ++
    Style.dimmed.wrapNested color "from" ++ " " ++ Style.dimmed.wrapNested color l.root ++ "\n"

def totalEntries (ls : List Listing) : Nat := ls.foldl (fun n l => n + l.entries.length) 0

def human (color : Bool) (elapsed : String) (ls : List Listing) : String :=
  let point := " " ++ Style.dimmed.wrapNested color "·" ++ " "
  Style.bold.wrapNested color "⛊" ++ " " ++ Style.bold.wrapNested color programName ++ " v" ++
    programVersion ++ "\n\n" ++
    String.join (ls.map (listingLines color)) ++
    "\nDone: " ++ ls.length.repr ++ " manifest(s) written" ++ point ++
    (totalEntries ls).repr ++ " resource(s)" ++ point ++ elapsed ++ "s\n"

def listingJson (l : Listing) : Json :=
  .obj [("root", .str l.root), ("output_file", .str l.output), ("entries", .strings l.entries)]

def json (ls : List Listing) : String := (Json.arr (ls.map listingJson)).pretty ++ "\n"

def jsonError (message : String) : String := (Json.obj [("error", .str message)]).compact ++ "\n"

end Report

end ResourceManifest
