import FlowPlan.StageGraph.Basic

/-!
The blocks of a flow graph.

The reduce side consists of the shuffles and of what follows them up to the next boundary, and the
map side of everything else that is no boundary.  A block is a set of elements of one side that hang
together, whichever way their connections run.
-/

namespace FlowPlan

/-- The items of one list that are not in another. -/
def without {α : Type} [DecidableEq α] (xs ys : List α) : List α := xs.filter (· ∉ ys)

theorem length_without_le {α : Type} [DecidableEq α] (xs ys : List α) :
    (without xs ys).length ≤ xs.length := List.length_filter_le _ _

namespace FlowGraph

/-- The shuffles and the elements reached from them without crossing a boundary. -/
def reduceSide (g : FlowGraph) : List ElementId :=
  let next e := (g.successors e).filter fun s => !g.isBoundary s
  Search.reach next g.elementIds (g.idsWhere (·.isShuffleBoundary))

/-- The side of an element; a boundary that is no shuffle is on neither. -/
def side? (g : FlowGraph) (reduceSide : List ElementId) (e : ElementId) : Option BlockKind :=
  if e ∈ reduceSide then some .reduce else if g.isBoundary e then none else some .map

/-- The elements that feed an element or are fed by it. -/
def neighbours (g : FlowGraph) (e : ElementId) : List ElementId :=
  g.successors e ++ g.predecessors e

end FlowGraph

namespace StageGraph

/-- The components of the nodes that have a side, where a node joins the neighbours on its own side.
Each keeps the order of the nodes, and they come in the order of their first node. -/
def components (neighbours : ElementId → List ElementId) (side : ElementId → Option BlockKind) :
    List ElementId → List (BlockKind × List ElementId)
  | [] => []
  | e :: rest =>
    match side e with
    | none => components neighbours side rest
    | some kind =>
      let next n := (neighbours n).filter fun m => side m = some kind
      let members := Search.breadthFirst next rest [e]
      (kind, (e :: rest).filter (· ∈ members)) ::
        components neighbours side (without rest members)
termination_by nodes => nodes.length
decreasing_by
  · exact Nat.lt_succ_self _
  · exact Nat.lt_succ_of_le (length_without_le _ _)

/-- A port whose connections leave the block. -/
def crosses (g : FlowGraph) (members : List ElementId) (p : PortId) : Bool :=
  (g.oppositeOwners p).any fun e => e ∉ members

def portIds (ports : List Port) : List PortId := ports.map (·.id)

/-- The block of the given elements. -/
def makeBlock (g : FlowGraph) (id : BlockId) (kind : BlockKind) (members : List ElementId) :
    Block :=
  { id, kind, elements := members,
    inputs := (members.flatMap fun e => portIds (g.inputsOf e)).filter (crosses g members),
    outputs := (members.flatMap fun e => portIds (g.outputsOf e)).filter (crosses g members) }

/-- All inputs of a flow, each with its output ports. -/
def inputBlock (g : FlowGraph) : Block :=
  let elements := g.idsWhere (·.isInput)
  { id := 0, kind := .input, elements, inputs := [],
    outputs := elements.flatMap fun e => portIds (g.outputsOf e) }

/-- All outputs of a flow, each with its input ports. -/
def outputBlock (g : FlowGraph) (id : BlockId) : Block :=
  let elements := g.idsWhere (·.isOutput)
  { id, kind := .output, elements,
    inputs := elements.flatMap fun e => portIds (g.inputsOf e), outputs := [] }

/-- The block of the inputs, the map and reduce blocks, and the block of the outputs. -/
def blocksOf (g : FlowGraph) : List Block :=
  let parts := components g.neighbours (g.side? g.reduceSide) g.elementIds
  let inner := (parts.zipIdx 1).map fun ((kind, members), id) => makeBlock g id kind members
  inputBlock g :: inner ++ [outputBlock g (parts.length + 1)]

end StageGraph
end FlowPlan
