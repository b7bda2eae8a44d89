import MovieDiff.Layout.Highlight
import MovieDiff.Main
import MovieDiff.Proofs.Alignment.Injective
import MovieDiff.Proofs.DebugInfo.Completeness
import MovieDiff.Proofs.Display.Patch
import MovieDiff.Proofs.Pcode.Braces
import MovieDiff.Proofs.Pcode.ScopeNumbers
import MovieDiff.Proofs.Pcode.Idempotence
import MovieDiff.Proofs.Pcode.Noise
import MovieDiff.Proofs.Scripts.Priority
import MovieDiff.Proofs.Scripts.Table
import MovieDiff.Proofs.Scripts.Selection
import MovieDiff.Proofs.Workspace.Order
import MovieDiff.Proofs.Display.SpanRuns
import MovieDiff.Proofs.Display.Gathering
import MovieDiff.Proofs.Hunk.Accounting
import MovieDiff.Proofs.Hunk.Optimal
import MovieDiff.Proofs.Alignment.Majority
import MovieDiff.Proofs.Hunk.Merging
import MovieDiff.Proofs.Alignment.Renamed
import MovieDiff.Proofs.Display.SourceSpans
import MovieDiff.Proofs.Layout.PaneRows
import MovieDiff.Proofs.Files.Rename
import MovieDiff.Proofs.Workspace.Containment
import MovieDiff.Proofs.Workspace.Validity
import MovieDiff.Proofs.Pcode.Positions
