import FlowPlan.Graph.Construct

/-!
Checkpoints: where data has to be materialized.

A stage runs its reduce side inside one reducer.  When the elements behind a shuffle lead into
another shuffle, or merge data that did not come through the first one, the stage has to end right
behind the shuffle.  An operator that begins a stage needs materialized data in front of it.
-/

namespace FlowPlan
namespace FlowGraph

/-- The elements behind a shuffle that are reached without crossing a boundary, the shuffle itself
in front. -/
def shuffleRegion (g : FlowGraph) (shuffle : ElementId) : List ElementId :=
  let next e := (g.successors e).filter fun s => s ≠ shuffle && !g.isBoundary s
  Search.reach next g.elementIds [shuffle]

/-- The region leads into another shuffle. -/
def reachesShuffle (g : FlowGraph) (shuffle : ElementId) (region : List ElementId) : Bool :=
  region.any fun e => (g.successors e).any fun s => s ≠ shuffle && g.isShuffleBoundary s

/-- An element of the region, the shuffle apart, is also fed from outside of it. -/
def mergesOthers (g : FlowGraph) (shuffle : ElementId) (region : List ElementId) : Bool :=
  region.any fun e => e ≠ shuffle && (g.predecessors e).any fun p => p ∉ region

/-- A shuffle diverges when what follows it cannot stay inside one reducer. -/
def diverges (g : FlowGraph) (shuffle : ElementId) : Bool :=
  let region := g.shuffleRegion shuffle
  g.reachesShuffle shuffle region || g.mergesOthers shuffle region

/-- A port that feeds nothing, or checkpoints only, needs no checkpoint behind it. -/
def isMaterialized (g : FlowGraph) (p : PortId) : Bool :=
  (g.oppositeOwners p).all g.isCheckpoint

/-- Materialize one output port of a diverging shuffle. -/
def checkpointBehind (s : FlowGraph × Nat) (p : PortId) : FlowGraph × Nat :=
  if s.1.isMaterialized p then s else (s.1.insertPseudoAfter p .stage, s.2 + 1)

def checkpointShuffle (s : FlowGraph × Nat) (shuffle : ElementId) : FlowGraph × Nat :=
  if s.1.diverges shuffle then
    ((s.1.outputsOf shuffle).map (·.id)).foldl checkpointBehind s
  else s

/-- Materialize one connection into a stage head. -/
def checkpointOn (s : FlowGraph × Nat) (c : Connection) : FlowGraph × Nat :=
  if (s.1.owner? c.source).any (·.isStageBoundary) then s
  else (s.1.insertPseudoOn c .stage, s.2 + 1)

def checkpointHead (s : FlowGraph × Nat) (head : ElementId) : FlowGraph × Nat :=
  (s.1.incoming head).foldl checkpointOn s

/-- Insert checkpoints behind diverging shuffles and in front of stage heads, and count them. -/
def insertCheckpoints (g : FlowGraph) : FlowGraph × Nat :=
  let s := (g.idsWhere (·.isShuffleBoundary)).foldl checkpointShuffle (g, 0)
  (s.1.idsWhere (·.isStageHead)).foldl checkpointHead s

end FlowGraph
end FlowPlan
