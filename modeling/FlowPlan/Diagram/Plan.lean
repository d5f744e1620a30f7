import FlowPlan.Diagram.Flow
import FlowPlan.StageGraph.Basic

/-!
The diagram of a stage graph: a node for each block, a cluster for each stage, and an edge for each
two blocks between which data flows.
-/

namespace FlowPlan
namespace StageGraph

def shapeOf : BlockKind → String
  | .input => "cylinder"
  | .output => "cylinder"
  | .map => "box"
  | .reduce => "box"

def colorOf : BlockKind → String
  | .input => "lightsalmon"
  | .output => "lightsalmon"
  | .map => "lightblue"
  | .reduce => "lightgreen"

def titleOf : BlockKind → String
  | .input => "inputs"
  | .output => "outputs"
  | .map => "map"
  | .reduce => "reduce"

/-- The title and number of a block, then the names of its elements, one in a line. -/
def labelOf (sg : StageGraph) (b : Block) : List Dot.Piece :=
  let names := b.elements.map fun e => Dot.Piece.text (sg.flow.nameOf e)
  .text s!"{titleOf b.kind} {b.id.label}" :: .lineBreak :: names.intersperse .lineBreak

def nodeOf (sg : StageGraph) (b : BlockId) : Dot.Statement :=
  .node b.label (match sg.block? b with
    | some block => FlowGraph.box (shapeOf block.kind) (colorOf block.kind) (sg.labelOf block)
    | none => [])

def clusterOf (sg : StageGraph) (s : Stage) : List Dot.Statement :=
  [.blank,
    .cluster s!"stage{s.number}"
      ([.setting ⟨"label", .string s!"stage {s.number}"⟩,
        .setting ⟨"style", .word "rounded"⟩,
        .setting ⟨"color", .word "gray50"⟩] ++ s.blocks.map sg.nodeOf)]

/-- The pairs of blocks that are connected, each once. -/
def blockEdges (sg : StageGraph) : List (BlockId × BlockId) :=
  (sg.connections.filterMap fun c => do
    return (← sg.blockOfPort? c.source, ← sg.blockOfPort? c.target)).eraseDups

/-- A shuffle runs from a map block to a reduce block of the same stage. -/
def isShuffle (sg : StageGraph) (source target : BlockId) : Bool :=
  sg.isMap source && sg.isReduce target && sg.stageOf? source == sg.stageOf? target

def edgeOf (sg : StageGraph) (source target : BlockId) : Dot.Statement :=
  .edge source.label target.label
    (if sg.isShuffle source target then
      [⟨"style", .word "bold"⟩, ⟨"label", .string "shuffle"⟩]
    else [])

def statements (sg : StageGraph) : List Dot.Statement :=
  [.blank, sg.nodeOf sg.input, sg.nodeOf sg.output]
    ++ sg.stages.flatMap sg.clusterOf
    ++ .blank :: sg.blockEdges.map fun (u, d) => sg.edgeOf u d

def diagram (sg : StageGraph) : String := Dot.document "stages" sg.statements

end StageGraph
end FlowPlan
