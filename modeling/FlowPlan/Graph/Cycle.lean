import FlowPlan.Graph.Query

/-!
Cycles of elements, found by a depth-first walk.

The walk goes down one path at a time and takes up a node when it first meets it.  Meeting a node
of the path again closes a cycle, which is the part of the path from that node on.  Nodes that are
neither new nor on the path are finished and lie on no cycle with the path.
-/

namespace FlowPlan
namespace Cycle

variable {α : Type} [DecidableEq α]

structure Walk (α : Type) where
  /-- The nodes that have not been met. -/
  unmet : List α
  /-- The cycles closed so far. -/
  cycles : List (List α)

/-- The end of a path from a node of it on. -/
def closing (path : List α) (x : α) : List α := path.dropWhile (· ≠ x)

/-- Walk on from the last node of a path.  A path never meets a node twice, so the number of nodes
bounds the depth. -/
def walk (next : α → List α) : Nat → List α → α → Walk α → Walk α
  | 0, _, _, w => w
  | depth + 1, path, x, w =>
    let path := path ++ [x]
    (next x).foldl (fun w y =>
      if y ∈ w.unmet then
        walk next depth path y { w with unmet := w.unmet.filter (· ≠ y) }
      else if y ∈ path then { w with cycles := w.cycles ++ [closing path y] }
      else w) w

/-- Start a walk at a node unless it has been met. -/
def walkFrom (next : α → List α) (depth : Nat) (w : Walk α) (x : α) : Walk α :=
  if x ∈ w.unmet then walk next depth [] x { w with unmet := w.unmet.filter (· ≠ x) } else w

/-- The cycles that close while walking from each node in turn. -/
def closed (next : α → List α) (nodes : List α) : List (List α) :=
  (nodes.foldl (walkFrom next nodes.length) { unmet := nodes, cycles := [] }).cycles

end Cycle

namespace FlowGraph

/-- The cycles of a graph, each as the elements along it. -/
def cycles (g : FlowGraph) : List (List ElementId) := Cycle.closed g.successors g.elementIds

end FlowGraph
end FlowPlan
