import SsaIr.Function.Flow
import SsaIr.Graph.Reachability

/-!
# Graph of the blocks of a function

A node for each block and an edge for each way control can leave it, marked with how it does.
-/

namespace SsaIr

/-- How control reaches the next block. -/
inductive EdgeKind where
  /-- By a branch with one target. -/
  | jump
  /-- By a branch with two targets whose condition holds. -/
  | whenTrue
  /-- By a branch with two targets whose condition fails. -/
  | whenFalse
  /-- By running off the end of a block without terminator. -/
  | fallthrough
  deriving DecidableEq, Inhabited

def EdgeKind.keyword : EdgeKind → String
  | jump => "jump"
  | whenTrue => "true"
  | whenFalse => "false"
  | fallthrough => "fallthrough"

structure BlockEdge where
  source : Nat
  target : Nat
  kind : EdgeKind
  deriving DecidableEq, Inhabited

structure BlockGraph where
  labels : List String
  /-- In the order of the blocks, the true side before the false side. -/
  edges : List BlockEdge
  deriving DecidableEq, Inhabited

namespace BlockGraph

/-- How control leaves a block, in the order of its successors. -/
def edgeKinds (b : Block) : List EdgeKind :=
  match b.terminator?.map (·.branchTargets.length) with
  | some 2 => [.whenTrue, .whenFalse]
  | some 1 => [.jump]
  | _ => [.fallthrough]

/-- The edges that leave a block. -/
def edgesFrom (f : Function) (b : Block) (source : Nat) : Except Error (List BlockEdge) :=
  (f.successorBlocks source).map fun targets =>
    (targets.zip (edgeKinds b)).map fun (target, kind) => { source, target, kind }

/-- The graph of a function. -/
def ofFunction (f : Function) : Except Error BlockGraph :=
  let edges := f.blocks.zipIdx.mapM fun (b, source) => edgesFrom f b source
  edges.map fun edges => { labels := f.labels, edges := edges.flatten }

def label (g : BlockGraph) (node : Nat) : String := g.labels[node]?.getD ""

/-- The edges with the labels of their ends. -/
def labelledEdges (g : BlockGraph) : List (String × String × EdgeKind) :=
  g.edges.map fun e => (g.label e.source, g.label e.target, e.kind)

/-- The labels at the ends of the edges from blocks with a label, in order. -/
def successors (g : BlockGraph) (label : String) : List String :=
  (g.labelledEdges.filter (·.1 = label)).map (·.2.1)

def nodes (g : BlockGraph) : List Nat := List.range g.labels.length

def targets (g : BlockGraph) (node : Nat) : List Nat :=
  (g.edges.filter (·.source = node)).map BlockEdge.target

/-- The blocks that control can come to from the first one. -/
def reachable (g : BlockGraph) : List Nat := Reachability.reachable g.targets g.nodes [0]

/-- The labels of the blocks that control cannot come to. -/
def unreachable (g : BlockGraph) : List String :=
  let reached := g.reachable
  (g.nodes.filter (· ∉ reached)).map g.label

/-- A character inside a quoted label of the graph language. -/
def escapeLabelChar (c : Char) : List Char :=
  if c = '"' ∨ c = '\\' then ['\\', c]
  else if c = '\n' then ['\\', 'l']
  else [c]

def labelAttribute (label : String) : String :=
  " [ label = \"" ++ String.ofList (label.toList.flatMap escapeLabelChar) ++ "\" ]\n"

/-- The graph as text for Graphviz. -/
def dot (g : BlockGraph) : String :=
  "digraph \x7b\n" ++
    String.join (g.labels.zipIdx.map fun (label, node) =>
      "    " ++ toString node ++ labelAttribute label) ++
    String.join (g.edges.map fun e =>
      "    " ++ toString e.source ++ " -> " ++ toString e.target ++
        labelAttribute e.kind.keyword) ++
    "\x7d\n"

end BlockGraph

end SsaIr
