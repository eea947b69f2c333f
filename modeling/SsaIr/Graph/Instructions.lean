import SsaIr.Function.Flow
import SsaIr.Graph.Reachability

/-!
# Graph of the instructions of a function

A node for each instruction and an edge for each way control can go from it to another when the
function runs.
-/

namespace SsaIr

structure InstructionGraph where
  /-- In program order. -/
  nodes : List Position
  edges : List (Position × Position)
  /-- Where the function starts, which need not be an instruction. -/
  start : Option Position
  deriving DecidableEq, Inhabited

namespace InstructionGraph

/-- The edges that leave an instruction for an existing one. -/
def edgesFrom (f : Function) (p : Position) : Except Error (List (Position × Position)) :=
  (f.flowSuccessors p).map fun targets =>
    (targets.filter fun q => (f.instruction? q).isSome).map fun q => (p, q)

/-- The graph of a function. -/
def ofFunction (f : Function) : Except Error InstructionGraph :=
  (f.positions.mapM (edgesFrom f)).map fun edges =>
    { nodes := f.positions, edges := edges.flatten, start := f.entryPoint? }

/-- The ends of the edges from a node, with repetitions. -/
def targets (g : InstructionGraph) (p : Position) : List Position :=
  (g.edges.filter (·.1 = p)).map Prod.snd

/-- The starts of the edges to a node, with repetitions. -/
def sources (g : InstructionGraph) (p : Position) : List Position :=
  (g.edges.filter (·.2 = p)).map Prod.fst

/-- The nodes that an edge leads to, in program order. -/
def successors (g : InstructionGraph) (p : Position) : List Position :=
  let targets := g.targets p
  g.nodes.filter (· ∈ targets)

/-- The nodes that an edge comes from, in program order. -/
def predecessors (g : InstructionGraph) (p : Position) : List Position :=
  let sources := g.sources p
  g.nodes.filter (· ∈ sources)

/-- The instructions that control can come to from the start, in program order. -/
def reachable (g : InstructionGraph) : List Position :=
  Reachability.reachable g.targets g.nodes g.start.toList

end InstructionGraph

end SsaIr
