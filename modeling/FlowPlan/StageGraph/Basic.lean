import FlowPlan.Bisection
import FlowPlan.Graph.Query

/-!
Stage graphs: a flow graph cut into blocks, and the blocks gathered into stages.

A stage runs its map blocks first; its reduce blocks read the shuffled output of the map blocks.
Two blocks are synthetic: one holds all inputs of the flow and one all outputs.  Checkpoints belong
to no block.
-/

namespace FlowPlan

inductive BlockKind
  | input
  | output
  | map
  | reduce
deriving DecidableEq, Repr

namespace BlockKind

def name : BlockKind → String
  | input => "input"
  | output => "output"
  | map => "map"
  | reduce => "reduce"

end BlockKind

/-- A part of one side of a stage. -/
structure Block where
  id : BlockId
  kind : BlockKind
  elements : List ElementId
  /-- Input ports of members that are fed from outside the block. -/
  inputs : List PortId
  /-- Output ports of members that feed something outside the block. -/
  outputs : List PortId
deriving DecidableEq, Repr

namespace Block

def holds (b : Block) (e : ElementId) : Bool := b.elements.contains e

/-- Membership in a block whose elements are in ascending order, as they are in a plan. -/
def contains (b : Block) (e : ElementId) : Bool := bisect e b.elements

theorem contains_eq_holds {b : Block} (h : b.elements.Pairwise (· < ·)) (e : ElementId) :
    b.contains e = b.holds e := by
  rw [Bool.eq_iff_iff, contains, bisect_iff_mem h, holds, List.contains_iff_mem]

/-- The ports through which data enters or leaves the block. -/
def ports (b : Block) : List PortId := b.inputs ++ b.outputs

def isMap (b : Block) : Bool := b.kind == .map

def isReduce (b : Block) : Bool := b.kind == .reduce

/-- Map and reduce blocks belong to stages. -/
def isStaged (b : Block) : Bool := b.isMap || b.isReduce

end Block

structure Stage where
  /-- The position in the order of execution, from one on. -/
  number : Nat
  mapBlocks : List BlockId
  reduceBlocks : List BlockId
deriving DecidableEq, Repr

namespace Stage

def blocks (s : Stage) : List BlockId := s.mapBlocks ++ s.reduceBlocks

def hasReduce (s : Stage) : Bool := !s.reduceBlocks.isEmpty

end Stage

structure StageGraph where
  /-- The flow graph that all numbers refer to. -/
  flow : FlowGraph
  /-- The blocks, each at the position of its number. -/
  blocks : List Block
  input : BlockId
  output : BlockId
  /-- The stages in order of execution. -/
  stages : List Stage
  /-- Data flow from a block output to an input of another block, through checkpoints or not. -/
  connections : List Connection

namespace StageGraph

def block? (sg : StageGraph) (b : BlockId) : Option Block := sg.blocks[b]?

/-- The fields of a block; a block that is not there has none. -/
def elementsOf (sg : StageGraph) (b : BlockId) : List ElementId :=
  ((sg.block? b).map (·.elements)).getD []

def inputsOf (sg : StageGraph) (b : BlockId) : List PortId :=
  ((sg.block? b).map (·.inputs)).getD []

def outputsOf (sg : StageGraph) (b : BlockId) : List PortId :=
  ((sg.block? b).map (·.outputs)).getD []

def isMap (sg : StageGraph) (b : BlockId) : Bool := (sg.block? b).any (·.isMap)

def isReduce (sg : StageGraph) (b : BlockId) : Bool := (sg.block? b).any (·.isReduce)

/-- The block whose input or output a port is. -/
def blockOfPort? (sg : StageGraph) (p : PortId) : Option BlockId :=
  (sg.blocks.find? (·.ports.contains p)).map (·.id)

/-- Some output of one block feeds some input of another. -/
def isConnected (sg : StageGraph) (source target : BlockId) : Bool :=
  sg.connections.any fun c =>
    sg.blockOfPort? c.source == some source && sg.blockOfPort? c.target == some target

/-- The block inputs that a block output feeds. -/
def targetsOf (sg : StageGraph) (p : PortId) : List PortId :=
  (sg.connections.filter (·.source == p)).map (·.target)

/-- The block outputs that feed a block input. -/
def sourcesOf (sg : StageGraph) (p : PortId) : List PortId :=
  (sg.connections.filter (·.target == p)).map (·.source)

/-- The position of the stage that has a block. -/
def stageOf? (sg : StageGraph) (b : BlockId) : Option Nat :=
  sg.stages.findIdx? (·.blocks.contains b)

end StageGraph

/-- Numbers in ascending order, each once. -/
def ascending (ns : List Nat) : List Nat := ns.eraseDups.mergeSort

end FlowPlan
