import Recurrence.Expansion.Division
import Recurrence.Expansion.Text
import Recurrence.Expansion.Ratio
import Recurrence.Memo.Shown
import Recurrence.Memo.Catalogue
import Recurrence.Memo.Script
import Recurrence.Reactive.Formula
import Recurrence.Text.InOrder
import Recurrence.Text.Path
import Recurrence.Command.Help
import Recurrence.Command.Reader
import Recurrence.Command.Report
import Recurrence.Command.Task
import Recurrence.Files
import Recurrence.Command.Run
import Recurrence.Command.Program
import Recurrence.Main
import Recurrence.Proofs.Expansion.Shape
import Recurrence.Proofs.Cache.Timeline
import Recurrence.Proofs.Memo.Transparency
import Recurrence.Proofs.Reactive.Freshness
import Recurrence.Proofs.Cache.Recency
import Recurrence.Proofs.Key.UniqueReading
import Recurrence.Proofs.Memo.Termination
import Recurrence.Proofs.Memo.Dependencies
import Recurrence.Proofs.Reactive.Recomputation
import Recurrence.Proofs.Reactive.Termination
import Recurrence.Proofs.Expansion.RoundTrip
import Recurrence.Proofs.Key.Reordering
import Recurrence.Proofs.Expansion.Grammar
import Recurrence.Proofs.Reactive.Fuel
import Recurrence.Proofs.Memo.Manual
import Recurrence.Proofs.Memo.Plainly
import Recurrence.Proofs.Key.Distinct
import Recurrence.Proofs.Cycle
import Recurrence.Proofs.Reactive.Dependencies
import Recurrence.Proofs.Expansion.Fraction
import Recurrence.Proofs.Expansion.Canonical
import Recurrence.Proofs.Expansion.Modes
import Recurrence.Proofs.Reactive.Sharing
import Recurrence.Proofs.Memo.Residue
import Recurrence.Proofs.Memo.Unwinding
import Recurrence.Proofs.Cache.Pruning
import Recurrence.Proofs.Expansion.Words
import Recurrence.Proofs.Key.FirstFailure
import Recurrence.Proofs.Text.InOrder
import Recurrence.Proofs.Detector.FirstSighting
import Recurrence.Proofs.Key.Format
