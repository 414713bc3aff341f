import FlowGraph.Function.Consistency
import FlowGraph.Function.Edit
import FlowGraph.Program.Reading
import FlowGraph.Program.Writing
import FlowGraph.Proofs.Outcome
import FlowGraph.Proofs.Graph.View
import FlowGraph.Proofs.Graph.Symmetry
import FlowGraph.Proofs.Graph.Effect
import FlowGraph.Proofs.Graph.Ownership
import FlowGraph.Proofs.Graph.Consistency
import FlowGraph.Proofs.Graph.Accounting
import FlowGraph.Proofs.Graph.Destruction
import FlowGraph.Proofs.Graph.Discipline
import FlowGraph.Proofs.Graph.Reachability
import FlowGraph.Proofs.Graph.References
import FlowGraph.Proofs.Graph.Updates
import FlowGraph.Proofs.Graph.Lifetimes
import FlowGraph.Proofs.Graph.Validity
import FlowGraph.Proofs.Text.Tokens
import FlowGraph.Proofs.Reading.Statements
import FlowGraph.Proofs.Graph.Growth
import FlowGraph.Proofs.Graph.Demolition
import FlowGraph.Proofs.Reading.Outline
import FlowGraph.Proofs.Reading.Description
import FlowGraph.Proofs.Text.Pages
import FlowGraph.Proofs.Text.Rewriting
import FlowGraph.Proofs.Writing.Sections
import FlowGraph.Proofs.Reading.LineNumbers
import FlowGraph.Proofs.Reading.Runs
import FlowGraph.Proofs.RoundTrip.Settle
import FlowGraph.Proofs.RoundTrip.Outline
import FlowGraph.Proofs.RoundTrip.Function
import FlowGraph.Proofs.RoundTrip.Isomorphism
import FlowGraph.Proofs.RoundTrip.Acceptance
import FlowGraph.Proofs.RoundTrip.Program
import FlowGraph.Proofs.Program.Merge
import FlowGraph.Proofs.Reading.Composition
import FlowGraph.Proofs.Reading.Annotation
import FlowGraph.Proofs.Reading.Context
import FlowGraph.Proofs.Reading.Language
import FlowGraph.Proofs.Reading.Relabelling
import FlowGraph.Proofs.Reading.Shape
import FlowGraph.Proofs.RoundTrip.Numbering
import FlowGraph.Proofs.RoundTrip.FixedPoint
import FlowGraph.Proofs.Graph.Moves
import FlowGraph.Proofs.Dominance.Links
import FlowGraph.Proofs.Graph.TreeLinks
import FlowGraph.Proofs.Dominance.Ancestors
import FlowGraph.Proofs.Writing.Failures
import FlowGraph.Proofs.Reading.Steps
import FlowGraph.Proofs.Reading.UndefinedLabels
import FlowGraph.Proofs.Program.Definitions
import FlowGraph.Proofs.Program.Container
import FlowGraph.Proofs.Reading.Places
import FlowGraph.Proofs.Writing.Limits
import FlowGraph.Proofs.Reading.Tables
import FlowGraph.Proofs.Reading.TableReader
import FlowGraph.Proofs.Program.TableReader
import FlowGraph.Proofs.Program.Reuse
import FlowGraph.Proofs.Graph.Reports
import FlowGraph.Proofs.Writing.Labels
