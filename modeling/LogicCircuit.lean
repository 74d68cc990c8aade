import LogicCircuit.Circuit.Interaction
import LogicCircuit.Circuit.Pointing
import LogicCircuit.Command.Folder
import LogicCircuit.Main
import LogicCircuit.RandomExpr
import LogicCircuit.Samples
import LogicCircuit.Proofs.Graph.Path
import LogicCircuit.Proofs.Circuit.Naming
import LogicCircuit.Proofs.Graph.DepthFirst
import LogicCircuit.Proofs.Circuit.Wiring
import LogicCircuit.Proofs.Circuit.Frame
import LogicCircuit.Proofs.Circuit.Runs
import LogicCircuit.Proofs.Circuit.Origins
import LogicCircuit.Proofs.Circuit.Edges
import LogicCircuit.Proofs.Circuit.Acyclicity
import LogicCircuit.Proofs.Simulation.Order
import LogicCircuit.Proofs.Simulation.Pass
import LogicCircuit.Proofs.Simulation.Denotation
import LogicCircuit.Proofs.Extraction.Reading
import LogicCircuit.Proofs.Extraction.Meaning
import LogicCircuit.Proofs.Expr.Scanning
import LogicCircuit.Proofs.Expr.RoundTrip
import LogicCircuit.Proofs.Expr.Lexemes
import LogicCircuit.Proofs.Expr.Strays
import LogicCircuit.Proofs.Expr.Grammar
import LogicCircuit.Proofs.Expr.Viability
import LogicCircuit.Proofs.Expr.Chains
import LogicCircuit.Proofs.Expr.Simplification
import LogicCircuit.Proofs.Expr.NormalForms
import LogicCircuit.Proofs.Expr.Packing
import LogicCircuit.Proofs.Expr.Rows
import LogicCircuit.Proofs.Circuit.Growth
import LogicCircuit.Proofs.Synthesis.Building
import LogicCircuit.Proofs.Synthesis.RoundTrip
import LogicCircuit.Proofs.Synthesis.Evaluation
import LogicCircuit.Proofs.Circuit.DriverMap
import LogicCircuit.Proofs.Simulation.Coherence
import LogicCircuit.Proofs.Simulation.Levels
import LogicCircuit.Proofs.Table.Columns
import LogicCircuit.Proofs.Table.Numbering
import LogicCircuit.Proofs.Table.Function
import LogicCircuit.Proofs.Table.Grading
import LogicCircuit.Proofs.Table.CanonicalForms
import LogicCircuit.Proofs.Table.Differences
import LogicCircuit.Proofs.Circuit.Objections
import LogicCircuit.Proofs.Circuit.Adding
import LogicCircuit.Proofs.Document.Replay
import LogicCircuit.Proofs.Document.Components
import LogicCircuit.Proofs.Document.Loading
import LogicCircuit.Proofs.Simulation.Mirrors
import LogicCircuit.Proofs.Document.RoundTrip
import LogicCircuit.Proofs.Netlist.Resolving
import LogicCircuit.Proofs.Netlist.Building
import LogicCircuit.Proofs.Netlist.Success
import LogicCircuit.Proofs.Netlist.Reading
import LogicCircuit.Proofs.Netlist.Writing
import LogicCircuit.Proofs.Netlist.Meaning
import LogicCircuit.Proofs.Netlist.RoundTrip
import LogicCircuit.Proofs.Netlist.Values
import LogicCircuit.Proofs.Netlist.Buffers
import LogicCircuit.Proofs.Netlist.Dependence
import LogicCircuit.Proofs.Netlist.Correctness
import LogicCircuit.Proofs.Netlist.Refusals
import LogicCircuit.Proofs.Synthesis.Export
import LogicCircuit.Proofs.Simulation.Outline
import LogicCircuit.Proofs.Simulation.Ticks
import LogicCircuit.Proofs.Simulation.Reset
import LogicCircuit.Proofs.Simulation.Snapshots
import LogicCircuit.Proofs.Simulation.Windows
import LogicCircuit.Proofs.Simulation.Oscillation
import LogicCircuit.Proofs.Samples.Building
import LogicCircuit.Proofs.Samples.Adder
import LogicCircuit.Proofs.Samples.Ring
import LogicCircuit.Proofs.Samples.Oscillator
import LogicCircuit.Proofs.Circuit.CycleCheck
import LogicCircuit.Proofs.Command.Comparison
import LogicCircuit.Proofs.Circuit.CycleSearch
import LogicCircuit.Proofs.Graph.LateEdges
import LogicCircuit.Proofs.Simulation.Staleness
import LogicCircuit.Proofs.Circuit.Invariants
import LogicCircuit.Proofs.Simulation.Changes
import LogicCircuit.Proofs.Simulation.Settling
import LogicCircuit.Proofs.Simulation.Clocks
import LogicCircuit.Proofs.Simulation.Restarts
import LogicCircuit.Proofs.Circuit.Rerouting
import LogicCircuit.Proofs.Analysis.DepthTable
import LogicCircuit.Proofs.Analysis.LongestWay
import LogicCircuit.Proofs.Analysis.Suggestions
import LogicCircuit.Proofs.Analysis.Bypass
import LogicCircuit.Proofs.Synthesis.Shape
import LogicCircuit.Proofs.Synthesis.Suggestions
import LogicCircuit.Proofs.Circuit.FreshNames
import LogicCircuit.Proofs.Table.ReadingBack
import LogicCircuit.Proofs.Simulation.Histories
import LogicCircuit.Proofs.Circuit.Likeness
import LogicCircuit.Proofs.Analysis.Likeness
import LogicCircuit.Proofs.Simulation.Flags
import LogicCircuit.Proofs.Simulation.Bench
import LogicCircuit.Proofs.Table.Likeness
import LogicCircuit.Proofs.Simulation.Listings
import LogicCircuit.Proofs.Analysis.Construction
import LogicCircuit.Proofs.Table.RowOrder
import LogicCircuit.Proofs.Simulation.Recognition
import LogicCircuit.Proofs.Expr.Random
