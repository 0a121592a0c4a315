import ResourceManifest.Main
import ResourceManifest.Proofs.Walk.Member
import ResourceManifest.Proofs.Manifest.Entries
import ResourceManifest.Proofs.Manifest.Plain
import ResourceManifest.Proofs.Walk.Bound
import ResourceManifest.Proofs.Manifest.Iteration
import ResourceManifest.Proofs.Walk.Graph
import ResourceManifest.Proofs.Manifest.Linked
import ResourceManifest.Proofs.Ignore.Decision
import ResourceManifest.Proofs.Manifest.Ignoring
import ResourceManifest.Proofs.FileTree.Update
import ResourceManifest.Proofs.FileTree.Opens
import ResourceManifest.Proofs.Path.Parent
import ResourceManifest.Proofs.FileSystem.Entry
import ResourceManifest.Proofs.FileSystem.Replace
import ResourceManifest.Proofs.FileSystem.Write
import ResourceManifest.Proofs.Json.Reading
import ResourceManifest.Proofs.Manifest.Written
import ResourceManifest.Proofs.Manifest.Modes
import ResourceManifest.Proofs.Run.Jobs
import ResourceManifest.Proofs.FileTree.Shape
import ResourceManifest.Proofs.FileSystem.Alike
import ResourceManifest.Proofs.Manifest.Alike
import ResourceManifest.Proofs.Run.Order
import ResourceManifest.Proofs.FileTree.Filled
import ResourceManifest.Proofs.Walk.Filled
import ResourceManifest.Proofs.FileSystem.Room
import ResourceManifest.Proofs.Ignore.Silent
import ResourceManifest.Proofs.Manifest.Repeated
import ResourceManifest.Proofs.Manifest.Unruled
import ResourceManifest.Proofs.Manifest.Within
import ResourceManifest.Proofs.Walk.Seen
import ResourceManifest.Proofs.Manifest.Seen
import ResourceManifest.Proofs.FileSystem.Dangling
import ResourceManifest.Proofs.Manifest.Dangling
import ResourceManifest.Proofs.FileSystem.Outside
import ResourceManifest.Proofs.Manifest.Skipped
import ResourceManifest.Proofs.Manifest.Directory
import ResourceManifest.Proofs.Ignore.Mended
import ResourceManifest.Proofs.Manifest.Mended
import ResourceManifest.Proofs.CommandLine.Arrangement
import ResourceManifest.Proofs.CommandLine.Kept
import ResourceManifest.Proofs.Json.Pretty
import ResourceManifest.Proofs.Run.Output
import ResourceManifest.Proofs.FileSystem.Spelling
import ResourceManifest.Proofs.Walk.Spelling
import ResourceManifest.Proofs.Manifest.Spelling
import ResourceManifest.Proofs.Config.Rendering
import ResourceManifest.Proofs.Config.Refusal
import ResourceManifest.Proofs.Manifest.Ordered
import ResourceManifest.Proofs.Manifest.Reversible
import ResourceManifest.Proofs.Text.Blank
import ResourceManifest.Proofs.Extension.Accepted
import ResourceManifest.Proofs.Extension.Normal
import ResourceManifest.Proofs.Manifest.Selected
import ResourceManifest.Proofs.Manifest.Decoded
import ResourceManifest.Proofs.Manifest.Stricter
