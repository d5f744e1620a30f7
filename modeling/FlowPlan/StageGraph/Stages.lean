import FlowPlan.Certificate
import FlowPlan.DisjointSets
import FlowPlan.Grouping
import FlowPlan.Precedence
import FlowPlan.StageGraph.Links

/-!
The stages of a flow: which blocks run together, and in which order.

A map block shares a stage with the reduce blocks that it feeds, and with the map blocks that read
exactly the same data.  A stage comes after the stages whose output it reads, and among stages that
could come next the one with the smallest block does.
-/

namespace FlowPlan
namespace StageGraph

/-- The block outputs that a block reads. -/
def readSet (links : List Link) (b : Block) : List PortId :=
  ascending ((links.filter (·.target.id == b.id)).map (·.connection.source))

/-- Map blocks that read anything, gathered by what they read. -/
def commonReaders (blocks : List Block) (links : List Link) : List (List PortId × List Block) :=
  groupByKey (readSet links) (blocks.filter fun b => b.isMap && !(readSet links b).isEmpty)

/-- The pairs of blocks that have to share a stage. -/
def joins (blocks : List Block) (links : List Link) : List (BlockId × BlockId) :=
  let shuffles := (links.filter (·.isShuffle)).map fun l => (l.source.id, l.target.id)
  let readers := (commonReaders blocks links).flatMap fun (_, bs) => adjacent (bs.map (·.id))
  shuffles ++ readers

def classes (blocks : List Block) (links : List Link) : DisjointSets :=
  (DisjointSets.singletons blocks.length).unionAll (joins blocks links)

/-- The smallest block of each stage. -/
def leaders (blocks : List Block) (sets : DisjointSets) : List BlockId :=
  ((blocks.filter (·.isStaged)).map fun b => sets.root b.id).eraseDups

/-- The links between map and reduce blocks. -/
def stagedLinks (links : List Link) : List Link :=
  links.filter fun l => l.source.isStaged && l.target.isStaged

/-- The stages that a stage reads from, itself apart. -/
def needs (sets : DisjointSets) (links : List Link) (leader : BlockId) : List BlockId :=
  let into := (stagedLinks links).filter fun l => sets.root l.target.id == leader
  (into.map fun l => sets.root l.source.id).filter (· ≠ leader)

/-- A stage may read its own data only through the shuffle. -/
def selfDefects (g : FlowGraph) (sets : DisjointSets) (links : List Link) : List Defect :=
  ((stagedLinks links).filter fun l =>
    sets.root l.source.id == sets.root l.target.id && !l.isShuffle).map fun l =>
      .selfDependent (g.ownerRef l.connection.target) l.source.id

/-- Stages left over by the ordering wait for each other. -/
def cycleDefects (g : FlowGraph) (blocks : List Block) (left : List BlockId) : List Defect :=
  match left.head?.bind (blocks[·]?) with
  | none => []
  | some b => (b.elements.take 1).map fun e => .cyclic (g.ref e) b.id

/-- The stage of the blocks that have the given root. -/
def makeStage (blocks : List Block) (sets : DisjointSets) (leader : BlockId) (number : Nat) :
    Stage :=
  let members := blocks.filter fun b => b.isStaged && sets.root b.id == leader
  { number, mapBlocks := (members.filter (·.isMap)).map (·.id),
    reduceBlocks := (members.filter (·.isReduce)).map (·.id) }

/-- The stage graph of a flow, and every rule that it violates.  Stages that wait for each other are
still part of it, after all others. -/
def plan (g : FlowGraph) : StageGraph × List Defect :=
  let blocks := blocksOf g
  let routes := routes g blocks
  let links := routes.filterMap (·.link?)
  let sets := classes blocks links
  let (ordered, left) := Precedence.order (needs sets links) (leaders blocks sets)
  let sg : StageGraph :=
    { flow := g, blocks, input := 0, output := blocks.length - 1,
      stages := ((ordered ++ left).zipIdx 1).map fun (leader, n) => makeStage blocks sets leader n,
      connections := links.map (·.connection) }
  (sg, routes.flatMap (·.defects g) ++ selfDefects g sets links ++ cycleDefects g blocks left)

/-! ## What a plan promises -/

/-- How often an element occurs in the blocks. -/
def occurrences (sg : StageGraph) (e : ElementId) : Nat :=
  (sg.blocks.flatMap (·.elements)).count e

/-- Every element that is no boundary is in exactly one block. -/
def isPartitioned (sg : StageGraph) : Bool :=
  (sg.flow.idsWhere fun e => !e.isBoundary).all fun e => sg.occurrences e == 1

/-- Every map and reduce block belongs to exactly one stage. -/
def isStaged (sg : StageGraph) : Bool :=
  (sg.blocks.filter (·.isStaged)).all fun b =>
    (sg.stages.filter (·.blocks.contains b.id)).length == 1

/-- No stage reads from a later one, and from itself only into its reduce blocks. -/
def isOrdered (sg : StageGraph) : Bool :=
  sg.connections.all fun c =>
    match sg.blockOfPort? c.source, sg.blockOfPort? c.target with
    | some u, some d =>
      match sg.stageOf? u, sg.stageOf? d with
      | some su, some sd => su < sd || (su == sd && sg.isReduce d)
      | _, _ => true
    | _, _ => false

def certificate (sg : StageGraph) : Certificate :=
  ⟨[("P1_elements_partitioned", sg.isPartitioned),
    ("P2_blocks_staged", sg.isStaged),
    ("P3_dependency_order", sg.isOrdered)]⟩

end StageGraph
end FlowPlan
