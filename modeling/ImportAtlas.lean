import ImportAtlas.Main
import ImportAtlas.Proofs.Json.Printed
import ImportAtlas.Proofs.Names
import ImportAtlas.Proofs.Rules
import ImportAtlas.Proofs.Resolve
import ImportAtlas.Proofs.Source.UseTree
import ImportAtlas.Proofs.Source.JavaScript.Records
import ImportAtlas.Proofs.Source.Python.Import
import ImportAtlas.Proofs.Source.Python.From
import ImportAtlas.Proofs.Graph.Saved
import ImportAtlas.Proofs.Keyed
import ImportAtlas.Proofs.Graph.Invariant
import ImportAtlas.Proofs.Graph.Components
import ImportAtlas.Proofs.Graph.Cycles
import ImportAtlas.Proofs.Explorer.Layout
import ImportAtlas.Proofs.Explorer.Reachable
import ImportAtlas.Proofs.Screen.Grid
import ImportAtlas.Proofs.Files.Disk
import ImportAtlas.Proofs.Build.File
import ImportAtlas.Proofs.Build.State
import ImportAtlas.Proofs.Build.Result
import ImportAtlas.Proofs.Build.ReExport
import ImportAtlas.Proofs.Build.Unwrapped
import ImportAtlas.Proofs.Build.Outcome
import ImportAtlas.Proofs.Build.Declared
import ImportAtlas.Proofs.Explorer.Paint
import ImportAtlas.Proofs.Drawing.Dot
import ImportAtlas.Proofs.Drawing.Text
import ImportAtlas.Proofs.Drawing.Modules
import ImportAtlas.Proofs.Build.Symbols
import ImportAtlas.Proofs.Source.Rust.Statements
import ImportAtlas.Proofs.Source.Rust.OpenGroup
import ImportAtlas.Proofs.Source.Rust.BlockComment
import ImportAtlas.Proofs.Files.Place
import ImportAtlas.Proofs.Resolve.Missing
import ImportAtlas.Proofs.Resolve.Relative
import ImportAtlas.Proofs.Explorer.Distance
import ImportAtlas.Proofs.Explorer.Expand
import ImportAtlas.Proofs.Explorer.Scroll
import ImportAtlas.Proofs.Explorer.Deselect
import ImportAtlas.Proofs.Explorer.Marker
import ImportAtlas.Proofs.Text.Wrap
import ImportAtlas.Proofs.Explorer.Errors
import ImportAtlas.Proofs.Screen.Emulator
import ImportAtlas.Proofs.Screen.Terminal
import ImportAtlas.Proofs.Resolve.Alias
import ImportAtlas.Proofs.Files.Walk
import ImportAtlas.Proofs.Glob.Depth
import ImportAtlas.Proofs.Discovery.Workspaces
import ImportAtlas.Proofs.Drawing.Boxes
import ImportAtlas.Proofs.Graph.Entropy
import ImportAtlas.Proofs.Graph.Loaded
import ImportAtlas.Proofs.Rules.Specificity
import ImportAtlas.Proofs.Session
import ImportAtlas.Proofs.Source.Blanking
import ImportAtlas.Proofs.Json.Commented
import ImportAtlas.Proofs.Language
import ImportAtlas.Proofs.Explorer.Viewport
import ImportAtlas.Proofs.Screen.Picture
import ImportAtlas.Proofs.Graph.DisplayName
import ImportAtlas.Proofs.Text.Table
