import FlowPlan.Graph.Construct

/-!
Identities: the map sides of stages that would have none.

A shuffle reads the output of a map side.  Where materialized data runs straight into a shuffle or
into an operator that begins a stage, an identity takes the place of the map side.  Any other
identity only passes records along and can be taken out.
-/

namespace FlowPlan
namespace FlowGraph

/-- A connection from materialized data straight into a shuffle or a stage head. -/
def lacksMap (g : FlowGraph) (c : Connection) : Bool :=
  (g.owner? c.source).any (·.isStageBoundary)
    && (g.owner? c.target).any fun e => e.isShuffleBoundary || e.isStageHead

def identityOn (s : FlowGraph × Nat) (c : Connection) : FlowGraph × Nat :=
  if s.1.lacksMap c then (s.1.insertPseudoOn c .none, s.2 + 1) else s

/-- Insert an identity on every connection that lacks a map side, and count them. -/
def insertIdentities (g : FlowGraph) : FlowGraph × Nat :=
  g.connections.foldl identityOn (g, 0)

/-! ## Splitting -/

def identities (g : FlowGraph) : List ElementId := g.idsWhere (·.isIdentity)

/-- The pairs of an incoming and an outgoing connection of an element. -/
def throughputs (g : FlowGraph) (e : ElementId) : List (Connection × Connection) :=
  (g.incoming e).flatMap fun i => (g.outgoing e).map fun o => (i, o)

/-- Add one copy of an identity for one pair of connections. -/
def addShare (name type : String) (g : FlowGraph) (pair : (Connection × Connection) × Nat) :
    FlowGraph :=
  let ((i, o), n) := pair
  let entry := g.ids.nextPort
  let exit := g.ids.nextPort + 1
  ((g.add (.pseudo s!"{name}~{n}" type .none)).connect i.source entry).connect exit o.target

/-- Replace an identity by one copy for each pair of an incoming and an outgoing connection. -/
def splitIdentity (g : FlowGraph) (e : ElementId) : FlowGraph :=
  let type := ((g.inputsOf e).head?.map (·.type)).getD ""
  (((g.throughputs e).zipIdx 1).foldl (addShare (g.nameOf e) type) g).removeElement e

def splitIfShared (s : FlowGraph × Nat) (e : ElementId) : FlowGraph × Nat :=
  if (s.1.incoming e).length ≤ 1 ∨ (s.1.outgoing e).length ≤ 1 then s
  else (s.1.splitIdentity e, s.2 + 1)

/-- Split every identity with several incoming and several outgoing connections, and count them. -/
def splitIdentities (g : FlowGraph) : FlowGraph × Nat :=
  g.identities.foldl splitIfShared (g, 0)

/-! ## Reducing -/

/-- An identity that is a map side: fed by materialized data only, and feeding boundaries only. -/
def isMapBody (g : FlowGraph) (e : ElementId) : Bool :=
  let before := g.predecessors e
  let behind := g.successors e
  !before.isEmpty && !behind.isEmpty && before.all g.isStageBoundary && behind.all g.isBoundary

def bypassUnlessMap (s : FlowGraph × Nat) (e : ElementId) : FlowGraph × Nat :=
  if !s.1.contains e || s.1.isMapBody e then s else (s.1.bypass e, s.2 + 1)

/-- Take out every identity that is no map side, and count them. -/
def reduceIdentities (g : FlowGraph) : FlowGraph × Nat :=
  g.identities.foldl bypassUnlessMap (g, 0)

end FlowGraph
end FlowPlan
