import DeferredMatrix.Binding
import DeferredMatrix.Session.Command
import DeferredMatrix.Value.Json
import DeferredMatrix.Proofs.Value.Matrices
import DeferredMatrix.Proofs.Buffer.Cells
import DeferredMatrix.Proofs.Buffer.Refinement
import DeferredMatrix.Proofs.Buffer.Pool
import DeferredMatrix.Proofs.Program.Execution
import DeferredMatrix.Proofs.Program.Listing
import DeferredMatrix.Proofs.Program.Inputs
import DeferredMatrix.Proofs.Program.Meaning
import DeferredMatrix.Proofs.Program.Growth
import DeferredMatrix.Proofs.Node.Steps
import DeferredMatrix.Proofs.Node.Evaluation
import DeferredMatrix.Proofs.Graph.Runs
import DeferredMatrix.Proofs.Graph.Dependencies
import DeferredMatrix.Proofs.Graph.Order
import DeferredMatrix.Proofs.Graph.Abreast
import DeferredMatrix.Proofs.Graph.Attempts
import DeferredMatrix.Proofs.Graph.Outcome
import DeferredMatrix.Proofs.Graph.Recursion
import DeferredMatrix.Proofs.Graph.Retry
import DeferredMatrix.Proofs.Graph.Confluence
import DeferredMatrix.Proofs.Graph.Safety
import DeferredMatrix.Proofs.Session.Estate
import DeferredMatrix.Proofs.Session.Moves
import DeferredMatrix.Proofs.Session.Definitions
import DeferredMatrix.Proofs.Session.Computes
import DeferredMatrix.Proofs.Graph.Behind
import DeferredMatrix.Proofs.Session.Runs
import DeferredMatrix.Proofs.Session.Catalog
import DeferredMatrix.Proofs.Session.Consistent
import DeferredMatrix.Proofs.Session.Reachable
import DeferredMatrix.Proofs.Session.History
import DeferredMatrix.Proofs.Session.DependencyOrder
import DeferredMatrix.Proofs.Session.EagerMeaning
import DeferredMatrix.Proofs.Session.Cycles
import DeferredMatrix.Proofs.Session.PushOrder
import DeferredMatrix.Proofs.Session.Ownership
import DeferredMatrix.Proofs.Session.HandlePhases
import DeferredMatrix.Proofs.Session.CompoundPrefix
import DeferredMatrix.Proofs.Session.TypedHandles
import DeferredMatrix.Proofs.Session.EvaluationFrame
import DeferredMatrix.Proofs.Session.NodeOrigins
import DeferredMatrix.Proofs.Session.Behind
import DeferredMatrix.Proofs.Session.Retries
import DeferredMatrix.Proofs.Session.CausalTrace
import DeferredMatrix.Proofs.Renaming.Basic
import DeferredMatrix.Proofs.Renaming.Pool
import DeferredMatrix.Proofs.Renaming.Nodes
import DeferredMatrix.Proofs.Renaming.Graphs
import DeferredMatrix.Proofs.Renaming.Sessions
import DeferredMatrix.Proofs.Renaming.Commands
import DeferredMatrix.Proofs.Session.Isolation
import DeferredMatrix.Proofs.Inversion.Compound
import DeferredMatrix.Proofs.Inversion.Exact
import DeferredMatrix.Proofs.Inversion.Sessions
import DeferredMatrix.Proofs.Binary.Single
import DeferredMatrix.Proofs.Binary.Reciprocal
import DeferredMatrix.Proofs.Json.Accepted
import DeferredMatrix.Proofs.Inversion.Thresholds
import DeferredMatrix.Proofs.Inversion.NotNumbers
import DeferredMatrix.Proofs.Value.Orientation
import DeferredMatrix.Proofs.Session.SkippedEdges
import DeferredMatrix.Proofs.Program.Outline
import DeferredMatrix.Proofs.Session.Listings
import DeferredMatrix.Proofs.Binary.Rounding
import DeferredMatrix.Proofs.Decimal.Shortest
import DeferredMatrix.Proofs.Json.Doubles
import DeferredMatrix.Proofs.Json.Separation
import DeferredMatrix.Proofs.Json.Rereading
import DeferredMatrix.Proofs.Json.Numerals
import DeferredMatrix.Proofs.Json.Saved
