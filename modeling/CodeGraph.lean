import CodeGraph.Text.Utf8
import CodeGraph.Text.Decimal
import CodeGraph.Text.Scientific
import CodeGraph.Json.Basic
import CodeGraph.Json.Token
import CodeGraph.Json.Parse
import CodeGraph.Json.Render
import CodeGraph.Json.Record
import CodeGraph.Property
import CodeGraph.Node
import CodeGraph.Edge
import CodeGraph.Codec.Property
import CodeGraph.Codec.Node
import CodeGraph.Codec.Edge
import CodeGraph.Slots
import CodeGraph.Graph.Error
import CodeGraph.Graph.Basic
import CodeGraph.Graph.Query
import CodeGraph.Graph.Content
import CodeGraph.Codec.Graph
import CodeGraph.KeyPool
import CodeGraph.Diff.Basic
import CodeGraph.Diff.Apply
import CodeGraph.Codec.Diff
import CodeGraph.Digest.Blake3
import CodeGraph.MethodBuilder
import CodeGraph.ControlFlow
import CodeGraph.DataFlow.FactSet
import CodeGraph.DataFlow.FlowGraph
import CodeGraph.DataFlow.Solver
import CodeGraph.DataFlow.ReachingDefs
import CodeGraph.Store.Error
import CodeGraph.Overlay
import CodeGraph.Codec.Overlay
import CodeGraph.Store.Basic
import CodeGraph.Pass.Basic
import CodeGraph.Pass.Runner
import CodeGraph.Pass.ReachingDefs
import CodeGraph.Codec.Database
import CodeGraph.CommandLine.Path
import CodeGraph.CommandLine.Files
import CodeGraph.CommandLine.Address
import CodeGraph.CommandLine.Engine
import CodeGraph.CommandLine.FileEngine
import CodeGraph.CommandLine.Arguments
import CodeGraph.CommandLine.Sample
import CodeGraph.CommandLine.Run
import CodeGraph.Main
import CodeGraph.Proofs.DataFlow.FactSet
import CodeGraph.Proofs.DataFlow.FlowGraph
import CodeGraph.Proofs.DataFlow.Solver
import CodeGraph.Proofs.DataFlow.ReachingDefs
import CodeGraph.Proofs.Graph.WellFormed
import CodeGraph.Proofs.Json.RoundTrip
import CodeGraph.Proofs.Property
import CodeGraph.Proofs.Graph.View
import CodeGraph.Proofs.Diff.Undo
import CodeGraph.Proofs.Pass.Run
import CodeGraph.Proofs.Pass.Parallel
import CodeGraph.Proofs.Graph.Model
import CodeGraph.Proofs.Codec.Element
import CodeGraph.Proofs.Codec.Overlay
import CodeGraph.Proofs.Codec.Diff
import CodeGraph.Proofs.Codec.Recode
import CodeGraph.Proofs.Store
import CodeGraph.Proofs.Diff.Overlay
import CodeGraph.Proofs.Pass.Stored
import CodeGraph.Proofs.Codec.Graph
import CodeGraph.Proofs.Diff.Restore
import CodeGraph.Proofs.Pass.Outcome
import CodeGraph.Proofs.Pass.Failure
import CodeGraph.Proofs.Graph.Reload
import CodeGraph.Proofs.Diff.Exact
import CodeGraph.Proofs.Diff.Content
import CodeGraph.Proofs.Diff.Commute
import CodeGraph.Proofs.DataFlow.Equations
import CodeGraph.Proofs.Graph.Flow
import CodeGraph.Proofs.Pass.Annotation
import CodeGraph.Proofs.Pass.DefUse
import CodeGraph.Proofs.CommandLine.FileEngine
import CodeGraph.Proofs.Pass.Withdrawal
import CodeGraph.Proofs.Codec.Reread
import CodeGraph.Proofs.CommandLine.Command
import CodeGraph.Proofs.CommandLine.Undo
import CodeGraph.Proofs.CommandLine.RoundTrip
import CodeGraph.Proofs.Store.Ledger
import CodeGraph.Proofs.Store.Tampering
import CodeGraph.Proofs.Graph.Loaded
import CodeGraph.Proofs.DataFlow.Parameters
import CodeGraph.Proofs.Graph.DepthFirst
import CodeGraph.Proofs.DataFlow.LeastSolution
import CodeGraph.Proofs.DataFlow.Numbering
import CodeGraph.Proofs.DataFlow.Converse
import CodeGraph.Proofs.DataFlow.Visits
import CodeGraph.Proofs.MethodBuilder.Growth
import CodeGraph.Proofs.MethodBuilder.Agreement
import CodeGraph.Proofs.Pass.Completion
import CodeGraph.Proofs.DataFlow.StraightLine
import CodeGraph.Proofs.MethodBuilder.StraightLine
import CodeGraph.Proofs.KeyPool
import CodeGraph.Proofs.MethodBuilder.Closing
import CodeGraph.Proofs.Graph.Canonical
import CodeGraph.Proofs.Diff.Assignment
import CodeGraph.Proofs.Graph.Action
import CodeGraph.Proofs.Graph.Freshness
import CodeGraph.Proofs.Diff.Growth
import CodeGraph.Proofs.Pass.Summary
