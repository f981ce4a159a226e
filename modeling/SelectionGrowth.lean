import SelectionGrowth.CommandLine.Run
import SelectionGrowth.Json.Reader
import SelectionGrowth.Json.Writer
import SelectionGrowth.Main
import SelectionGrowth.Proofs.Selection.Faults
import SelectionGrowth.Proofs.Selection.Progress
import SelectionGrowth.Proofs.Server.Documents
import SelectionGrowth.Proofs.Server.Runs
import SelectionGrowth.Proofs.Syntax.Conversion
import SelectionGrowth.Proofs.Text.Replay
import SelectionGrowth.Server.Wire
import SelectionGrowth.Proofs.Syntax.Numbering
import SelectionGrowth.Proofs.Syntax.Laminar
import SelectionGrowth.Proofs.Selection.Skipping
import SelectionGrowth.Proofs.Syntax.Mirror
import SelectionGrowth.Proofs.Syntax.Fidelity
import SelectionGrowth.Proofs.Server.Retracing
import SelectionGrowth.Proofs.Selection.Around
import SelectionGrowth.Proofs.Store.Runs
import SelectionGrowth.Proofs.Store.Staleness
import SelectionGrowth.Proofs.Store.Reopening
import SelectionGrowth.Proofs.Server.Independence
import SelectionGrowth.Proofs.Text.Columns
import SelectionGrowth.Proofs.Text.Positions
import SelectionGrowth.Proofs.Text.Points
import SelectionGrowth.Proofs.Text.Clamping
import SelectionGrowth.Proofs.Selection.Anchor
import SelectionGrowth.Proofs.Selection.Nearest
import SelectionGrowth.Proofs.Selection.Histories
import SelectionGrowth.Proofs.Table.Lookups
import SelectionGrowth.Proofs.Settings.Layers
import SelectionGrowth.Proofs.Language.Orders
import SelectionGrowth.Proofs.Text.OldEnds
import SelectionGrowth.Proofs.CommandLine.Printing
import SelectionGrowth.Proofs.CommandLine.Grammar
import SelectionGrowth.Proofs.Server.Openings
