import StepLisp.Session.Workbench
import StepLisp.Report.Inspect
import StepLisp.CommandLine
import StepLisp.Main
import StepLisp.Proofs.Change
import StepLisp.Proofs.Evaluation
import StepLisp.Proofs.Run
import StepLisp.Proofs.Simulation
import StepLisp.Proofs.Stepping
import StepLisp.Proofs.Agreement
import StepLisp.Proofs.Growth
import StepLisp.Proofs.Listing
import StepLisp.Proofs.Reachable
import StepLisp.Proofs.Contents
import StepLisp.Proofs.Reach
import StepLisp.Proofs.Locality
import StepLisp.Proofs.Spelling
import StepLisp.Proofs.Balance
import StepLisp.Proofs.Relabelling
import StepLisp.Proofs.Descent
import StepLisp.Proofs.Binary64
import StepLisp.Proofs.Rounding
import StepLisp.Proofs.NumberText
import StepLisp.Proofs.Alike
import StepLisp.Proofs.Reprint
import StepLisp.Proofs.Numbering
import StepLisp.Proofs.Layout
import StepLisp.Proofs.Spans
import StepLisp.Proofs.History
import StepLisp.Proofs.Ancestry
import StepLisp.Proofs.Resolution
import StepLisp.Proofs.Native
import StepLisp.Proofs.Protocol
import StepLisp.Proofs.Origins
import StepLisp.Proofs.Accounting
import StepLisp.Proofs.Nesting
import StepLisp.Proofs.Effects
import StepLisp.Proofs.Ledger
import StepLisp.Proofs.Parents
import StepLisp.Proofs.Answered
import StepLisp.Proofs.SameWords
import StepLisp.Proofs.Episodes
import StepLisp.Proofs.Brackets
import StepLisp.Proofs.Blame
import StepLisp.Proofs.Independence
import StepLisp.Proofs.Parts
import StepLisp.Proofs.Budget
import StepLisp.Proofs.Columns
import StepLisp.Proofs.Lines
import StepLisp.Proofs.StepLimit
import StepLisp.Proofs.Definitions
import StepLisp.Proofs.Visibility
import StepLisp.Proofs.ByteOrder
import StepLisp.Proofs.Canonical
import StepLisp.Proofs.Equality
import StepLisp.Proofs.Identity
import StepLisp.Proofs.Grammar
import StepLisp.Proofs.Deeds
import StepLisp.Proofs.Assembly
import StepLisp.Proofs.Overheard
import StepLisp.Proofs.Context
import StepLisp.Proofs.CallFrame
import StepLisp.Proofs.Joins
