import SmallLisp.CommandLine
import SmallLisp.FileTree
import SmallLisp.Main
import SmallLisp.Proofs.Evaluation.Congruence
import SmallLisp.Proofs.Evaluation.Fuel
import SmallLisp.Proofs.Evaluation.Depth
import SmallLisp.Proofs.Evaluation.Natural
import SmallLisp.Proofs.Evaluation.Derivation
import SmallLisp.Proofs.Evaluation.Realization
import SmallLisp.Proofs.Evaluation.Agreement
import SmallLisp.Proofs.Evaluation.TailPosition
import SmallLisp.Proofs.Evaluation.Parameters
import SmallLisp.Proofs.Reading.Scans
import SmallLisp.Proofs.Reading.Source
import SmallLisp.Proofs.Reading.Feed
import SmallLisp.Proofs.Reading.Written
import SmallLisp.Proofs.Reading.RoundTrip
import SmallLisp.Proofs.Reading.Lines
import SmallLisp.Proofs.Reading.Wrapped
import SmallLisp.Proofs.Reading.Grammar
import SmallLisp.Proofs.Reading.Acceptance
import SmallLisp.Proofs.Reading.ReadBack
import SmallLisp.Proofs.Evaluation.PrintedClosures
import SmallLisp.Proofs.Evaluation.Quiet
import SmallLisp.Proofs.Value.References
import SmallLisp.Proofs.Native.References
import SmallLisp.Proofs.Heap.Frames
import SmallLisp.Proofs.Heap.Foundation
import SmallLisp.Proofs.Heap.History
import SmallLisp.Proofs.Heap.Reach
import SmallLisp.Proofs.Confinement.Parts
import SmallLisp.Proofs.Confinement.Runs
import SmallLisp.Proofs.Confinement.Evaluator
import SmallLisp.Proofs.Confinement.Shadowing
import SmallLisp.Proofs.Confinement.Noninterference
import SmallLisp.Proofs.Evaluation.Interventions
import SmallLisp.Proofs.Confinement.Presence
import SmallLisp.Proofs.Session.Hosting
import SmallLisp.Proofs.Session.LoadFile
import SmallLisp.Proofs.Session.FileForms
import SmallLisp.Proofs.Evaluation.Limit
import SmallLisp.Proofs.Reading.Concatenation
import SmallLisp.Proofs.Repl.Balance
import SmallLisp.Proofs.Repl.Gathering
import SmallLisp.Proofs.Table.Order
import SmallLisp.Proofs.Value.Equality
import SmallLisp.Proofs.Value.Annotation
import SmallLisp.Proofs.Map.Contents
import SmallLisp.Proofs.Evaluation.Instantiation
import SmallLisp.Proofs.Evaluation.Expansion
import SmallLisp.Proofs.Session.Invocation
import SmallLisp.Proofs.Session.Lookahead
import SmallLisp.Proofs.Session.Start
import SmallLisp.Proofs.Session.Hygiene
import SmallLisp.Proofs.Evaluation.Unwinding
import SmallLisp.Proofs.Native.Arithmetic
import SmallLisp.Proofs.Session.Alternatives
import SmallLisp.Proofs.Session.Clauses
import SmallLisp.Proofs.Evaluation.Visits
import SmallLisp.Proofs.Native.Columns
import SmallLisp.Proofs.Native.Checks
import SmallLisp.Proofs.Native.Mapping
import SmallLisp.Proofs.Native.Interchange
import SmallLisp.Proofs.Evaluation.Constants
import SmallLisp.Proofs.Evaluation.MapLiterals
import SmallLisp.Proofs.Value.Nesting
import SmallLisp.Proofs.Evaluation.TemplateNesting
import SmallLisp.Proofs.Reading.Space
import SmallLisp.Proofs.Reading.Layout
import SmallLisp.Proofs.Reading.Calls
import SmallLisp.Proofs.Reading.Progress
import SmallLisp.Proofs.Reading.Positions
