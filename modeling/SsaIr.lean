import SsaIr.Builder.Call
import SsaIr.CommandLine.Directory
import SsaIr.Main
import SsaIr.Proofs.Except
import SsaIr.Proofs.Graph.Instructions
import SsaIr.Proofs.Liveness
import SsaIr.Proofs.Coloring
import SsaIr.Proofs.Interference
import SsaIr.Proofs.Interference.Edges
import SsaIr.Proofs.Interference.Refinement
import SsaIr.Proofs.Coloring.Valid
import SsaIr.Proofs.Coloring.DenseCore
import SsaIr.Proofs.Coloring.Index
import SsaIr.Proofs.Validity
import SsaIr.Proofs.Validity.Definitions
import SsaIr.Proofs.Copies
import SsaIr.Proofs.Flow
import SsaIr.Proofs.ExecutionOrder
import SsaIr.Proofs.ExecutionOrder.Walk
import SsaIr.Proofs.Graph.Blocks
import SsaIr.Proofs.Liveness.Blocks
import SsaIr.Proofs.PhiElimination
import SsaIr.Proofs.PhiElimination.Effect
import SsaIr.Proofs.PhiElimination.EntryLive
import SsaIr.Proofs.PhiElimination.InPlace
import SsaIr.Proofs.Graph.Failure
import SsaIr.Proofs.Module.RoundTrip
import SsaIr.Proofs.Builder.RoundTrip
import SsaIr.Proofs.Module.LabelStyles
import SsaIr.Proofs.Module.Composition
import SsaIr.Proofs.Module.Definitions
import SsaIr.Proofs.Text.Commas
import SsaIr.Proofs.Value.Scope
import SsaIr.Proofs.Value.Reparse
import SsaIr.Proofs.Instruction.Shape
import SsaIr.Proofs.Module.Invariants
import SsaIr.Proofs.Graph.Branches
import SsaIr.Proofs.Json.Module
import SsaIr.Proofs.Validity.Mentions
import SsaIr.Proofs.Validity.Targets
import SsaIr.Proofs.PhiElimination.Unnamed
import SsaIr.Proofs.Builder.Fresh
