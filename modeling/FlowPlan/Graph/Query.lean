import FlowPlan.Graph.Basic
import FlowPlan.Search

/-!
Questions about the connections of a flow graph.

Lists of neighbours follow the ports of the element first and the order of the connections second,
because that order decides in which order later stages see them.
-/

namespace FlowPlan
namespace FlowGraph

/-- The ports at the other end of a port's connections. -/
def opposites (g : FlowGraph) (p : PortId) : List PortId :=
  g.connections.filterMap fun c =>
    if c.source = p then some c.target
    else if c.target = p then some c.source
    else none

def isConnected (g : FlowGraph) (p : PortId) : Bool :=
  g.connections.any fun c => c.source == p || c.target == p

/-- The connections into an element. -/
def incoming (g : FlowGraph) (e : ElementId) : List Connection :=
  (g.inputsOf e).flatMap fun p => g.connections.filter (·.target == p.id)

/-- The connections out of an element. -/
def outgoing (g : FlowGraph) (e : ElementId) : List Connection :=
  (g.outputsOf e).flatMap fun p => g.connections.filter (·.source == p.id)

/-- The elements that an element feeds, each once. -/
def successors (g : FlowGraph) (e : ElementId) : List ElementId :=
  ((g.outgoing e).filterMap fun c => g.ownerId? c.target).eraseDups

/-- The elements that feed an element, each once. -/
def predecessors (g : FlowGraph) (e : ElementId) : List ElementId :=
  ((g.incoming e).filterMap fun c => g.ownerId? c.source).eraseDups

/-! An element that is not in the graph has none of these properties. -/

def isStageBoundary (g : FlowGraph) (e : ElementId) : Bool :=
  (g.element? e).any (·.isStageBoundary)

def isShuffleBoundary (g : FlowGraph) (e : ElementId) : Bool :=
  (g.element? e).any (·.isShuffleBoundary)

def isBoundary (g : FlowGraph) (e : ElementId) : Bool := (g.element? e).any (·.isBoundary)

def isIdentity (g : FlowGraph) (e : ElementId) : Bool := (g.element? e).any (·.isIdentity)

def isCheckpoint (g : FlowGraph) (e : ElementId) : Bool := (g.element? e).any (·.isCheckpoint)

def isStageHead (g : FlowGraph) (e : ElementId) : Bool := (g.element? e).any (·.isStageHead)

/-- The owners of the ports that a port is connected with. -/
def oppositeOwners (g : FlowGraph) (p : PortId) : List ElementId :=
  (g.opposites p).filterMap g.ownerId?

/-- The boundary elements reached from a port through elements that are no boundaries, in the order
of their discovery. -/
def succeedingBoundaries (g : FlowGraph) (p : PortId) : List ElementId :=
  let next e := if g.isBoundary e then [] else g.successors e
  (Search.reach next g.elementIds (g.oppositeOwners p)).filter g.isBoundary

/-- The elements that meet a condition, by number. -/
def idsWhere (g : FlowGraph) (p : Element → Bool) : List ElementId :=
  (g.elements.filter p).map (·.id)

end FlowGraph
end FlowPlan
