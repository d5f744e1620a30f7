import FlowPlan.Diagram.Plan
import FlowPlan.Proofs.FlowDiagrams
import FlowPlan.Proofs.StagePlans

/-!
The diagram of a stage graph, read as text.

The diagram declares the two synthetic blocks and then the blocks of each stage, whatever stage
graph it is made of (`StageGraph.read_diagram`).  In a plan the stages divide the other blocks, so
each block is declared once.  `diagrams_readable` says this together with what holds of the diagram
of a flow graph.
-/

namespace FlowPlan
namespace StageGraph

variable {sg : StageGraph}

/-! ## Statements -/

theorem label_isWord (b : BlockId) : Dot.IsWord b.label :=
  Dot.isWord_numbered (s := "b") (by decide) b

theorem label_notMem_keywords (b : BlockId) : b.label ∉ Dot.keywords :=
  Dot.numbered_notMem_keywords "b" b

theorem label_injective : Function.Injective BlockId.label := Dot.numbered_injective "b"

def nodeAttributes (sg : StageGraph) (b : BlockId) : List Dot.Attribute :=
  match sg.block? b with
  | some block => FlowGraph.box (shapeOf block.kind) (colorOf block.kind) (sg.labelOf block)
  | none => []

def edgeAttributes (sg : StageGraph) (source target : BlockId) : List Dot.Attribute :=
  if sg.isShuffle source target then [⟨"style", .word "bold"⟩, ⟨"label", .string "shuffle"⟩] else []

theorem nodeOf_isPlain (sg : StageGraph) (b : BlockId) : (sg.nodeOf b).IsPlain := by
  have hshape : ∀ kind, Dot.IsWord (shapeOf kind) := by
    intro kind
    cases kind <;> decide
  have hcolor : ∀ kind, Dot.IsWord (colorOf kind) := by
    intro kind
    cases kind <;> decide
  rw [nodeOf, Dot.Statement.IsPlain]
  refine ⟨label_isWord b, ?_⟩
  cases sg.block? b with
  | none => simp
  | some block => exact FlowGraph.box_isPlain (hshape _) (hcolor _) _

theorem edgeOf_isPlain (sg : StageGraph) (source target : BlockId) :
    (sg.edgeOf source target).IsPlain := by
  rw [edgeOf, Dot.Statement.IsPlain]
  refine ⟨label_isWord source, label_isWord target, ?_⟩
  split_ifs
  · simp only [Dot.Value.string, List.forall_mem_cons]
    exact ⟨.word (by decide) (by decide), .quoted (by decide) _, by simp⟩
  · simp

theorem clusterOf_isPlain (sg : StageGraph) (s : Stage) : ∀ t ∈ sg.clusterOf s, t.IsPlain := by
  simp only [clusterOf, List.forall_mem_cons, Dot.Statement.IsPlain]
  refine ⟨trivial, ⟨?_, ?_⟩, by simp⟩
  · exact Dot.isWord_numbered (s := "stage") (by decide) s.number
  · rw [Dot.bodyIsPlain_iff, List.forall_mem_append]
    refine ⟨?_, fun t ht => ?_⟩
    · simp only [List.forall_mem_cons, Dot.Statement.IsPlain, Dot.Value.string]
      exact ⟨.quoted (by decide) _, .word (by decide) (by decide), .word (by decide) (by decide),
        by simp⟩
    · obtain ⟨b, -, rfl⟩ := List.mem_map.1 ht
      exact nodeOf_isPlain sg b

theorem statements_isPlain (sg : StageGraph) : ∀ s ∈ sg.statements, s.IsPlain := by
  simp only [statements, List.cons_append, List.nil_append, List.forall_mem_cons,
    List.forall_mem_append]
  refine ⟨trivial, nodeOf_isPlain sg _, nodeOf_isPlain sg _, fun s hs => ?_, trivial,
    fun s hs => ?_⟩
  · obtain ⟨stage, -, hs⟩ := List.mem_flatMap.1 hs
    exact clusterOf_isPlain sg stage s hs
  · obtain ⟨⟨u, d⟩, -, rfl⟩ := List.mem_map.1 hs
    exact edgeOf_isPlain sg u d

/-! ## Declarations -/

def drawnNode (sg : StageGraph) (b : BlockId) : Dot.Node :=
  { id := b.label, attributes := Dot.attributeTokens (sg.nodeAttributes b) }

def drawnEdge (sg : StageGraph) (p : BlockId × BlockId) : Dot.Edge :=
  { tail := p.1.label, head := p.2.label,
    attributes := Dot.attributeTokens (sg.edgeAttributes p.1 p.2) }

def drawnCluster (s : Stage) : Dot.Cluster :=
  { id := "cluster_" ++ s!"stage{s.number}", title := some [s!"stage {s.number}"] }

def drawn (sg : StageGraph) : Dot.Drawing :=
  { nodes := (sg.input :: sg.output :: sg.stages.flatMap (·.blocks)).map sg.drawnNode,
    edges := sg.blockEdges.map sg.drawnEdge,
    clusters := sg.stages.map drawnCluster }

theorem declares_node (sg : StageGraph) (b : BlockId) :
    Dot.Declares (sg.nodeOf b).phrases ⟨[sg.drawnNode b], [], []⟩ :=
  .node (label_notMem_keywords b) (sg.nodeAttributes b)

theorem declares_cluster (sg : StageGraph) (s : Stage) :
    Dot.Declares ((sg.clusterOf s).flatMap Dot.Statement.phrases)
      ⟨s.blocks.map sg.drawnNode, [], [drawnCluster s]⟩ := by
  have htitle := Dot.Declares.setting ⟨"label", .string s!"stage {s.number}"⟩
  have hline : Dot.linesUnder? "label" (Dot.Attribute.tokens
      ⟨"label", .string s!"stage {s.number}"⟩) = some [s!"stage {s.number}"] := by
    rw [Dot.Value.string, Dot.linesUnder?_tokens, Dot.lines_text]
  have hblocks : Dot.Declares ((s.blocks.map sg.nodeOf).flatMap Dot.Statement.phrases)
      ⟨s.blocks.map sg.drawnNode, [], []⟩ := by
    rw [List.flatMap_map]
    exact .nodes fun b _ => sg.declares_node b
  have hcluster := (Dot.Declares.cluster ("cluster_" ++ s!"stage{s.number}") htitle
    ((Dot.Declares.setting ⟨"style", .word "rounded"⟩).append
      ((Dot.Declares.setting ⟨"color", .word "gray50"⟩).append hblocks))).append
    Dot.Declares.closing
  rw [hline, Dot.Drawing.empty_append, Dot.Drawing.empty_append, Dot.Drawing.append_empty]
    at hcluster
  simpa [clusterOf, drawnCluster, Dot.Statement.phrases, Dot.bodyPhrases_eq,
    Dot.Drawing.append_def] using hcluster

theorem declares_statements (sg : StageGraph) :
    Dot.Declares (Dot.bodyPhrases sg.statements) sg.drawn := by
  have hends := (sg.declares_node sg.input).append (sg.declares_node sg.output)
  have hclusters : Dot.Declares ((sg.stages.flatMap sg.clusterOf).flatMap Dot.Statement.phrases)
      ⟨(sg.stages.flatMap (·.blocks)).map sg.drawnNode, [], sg.stages.map drawnCluster⟩ := by
    have hjoin : Dot.Drawing.join sg.stages
        (fun s => ⟨s.blocks.map sg.drawnNode, [], [drawnCluster s]⟩)
          = ⟨(sg.stages.flatMap (·.blocks)).map sg.drawnNode, [], sg.stages.map drawnCluster⟩ := by
      simp [Dot.Drawing.join, List.map_eq_flatMap, List.flatMap_assoc]
    rw [List.flatMap_assoc, ← hjoin]
    exact .flatMap fun s _ => sg.declares_cluster s
  have hedges : Dot.Declares ((sg.blockEdges.map fun p => sg.edgeOf p.1 p.2).flatMap
      Dot.Statement.phrases) ⟨[], sg.blockEdges.map sg.drawnEdge, []⟩ := by
    rw [List.flatMap_map]
    exact .edges fun p _ => .edge _ _ _
  have hall := hends.append (hclusters.append hedges)
  rw [Dot.bodyPhrases_eq, statements, drawn]
  simpa [Dot.Statement.phrases, Dot.Drawing.append_def] using hall

/-- The diagram of any stage graph can be read, and this is what it declares. -/
theorem read_diagram (sg : StageGraph) : Dot.read sg.diagram = some sg.drawn :=
  Dot.read_document (by decide) sg.statements_isPlain sg.declares_statements

/-! ## Blocks of a plan -/

/-- The two synthetic blocks and those of the stages are all there are. -/
theorem blocks_perm (g : FlowGraph) :
    ((plan g).1.input :: (plan g).1.output :: (plan g).1.stages.flatMap (·.blocks)).Perm
      ((plan g).1.blocks.map (·.id)) := by
  have hstaged : (blocksOf g).filter (·.isStaged) = innerBlocks g := by
    have hinner : (innerBlocks g).filter (·.isStaged) = innerBlocks g := by
      refine List.filter_eq_self.2 fun b hb => ?_
      rcases kind_of_mem_innerBlocks hb with hkind | hkind <;>
        simp [Block.isStaged, Block.isMap, Block.isReduce, hkind]
    rw [blocksOf_eq, List.filter_append, List.filter_cons_of_neg Bool.false_ne_true, hinner]
    exact List.append_nil _
  have houtput : (plan g).1.output = (parts g).length + 1 := by
    show (blocksOf g).length - 1 = _
    rw [blocksOf_eq, List.length_append, List.length_cons, length_innerBlocks,
      List.length_singleton]
    omega
  have hblocks : (plan g).1.blocks.map (·.id)
      = (plan g).1.input :: ((innerBlocks g).map (·.id) ++ [(plan g).1.output]) := by
    rw [houtput]
    show (blocksOf g).map (·.id) = _
    rw [blocksOf_eq, List.map_append]
    rfl
  have hstages := (isDivided_plan g).blocks
  rw [show (plan g).1.blocks = blocksOf g from rfl, hstaged] at hstages
  rw [hblocks]
  exact ((hstages.cons _).trans (List.perm_append_singleton _ _).symm).cons _

theorem labels_nodup (g : FlowGraph) : ((plan g).1.blocks.map (·.id.label)).Nodup := by
  have hids : ((plan g).1.blocks.map (·.id)).Nodup := by
    rw [show (plan g).1.blocks = blocksOf g from rfl, ids_blocksOf]
    exact List.nodup_range
  rw [show (fun b : Block => b.id.label) = BlockId.label ∘ Block.id from rfl, ← List.map_map]
  exact hids.map label_injective

/-- In the diagram of a plan each block has one node. -/
theorem nodes_drawn_plan (g : FlowGraph) :
    ((plan g).1.drawn.nodes.map (·.id)).Perm ((plan g).1.blocks.map (·.id.label)) ∧
      ((plan g).1.drawn.nodes.map (·.id)).Nodup := by
  have hperm : ((plan g).1.drawn.nodes.map (·.id)).Perm
      ((plan g).1.blocks.map (·.id.label)) := by
    have hlabels := (blocks_perm g).map BlockId.label
    rw [List.map_map] at hlabels
    rw [drawn, List.map_map]
    exact hlabels
  exact ⟨hperm, hperm.nodup_iff.2 (labels_nodup g)⟩

end StageGraph

/-- Diagrams can be read as what they were written from.  Whatever the names are, each string ends
where it was ended, since the text is read as the tokens of its statements.  In the diagram of a
well-formed graph each element at any depth has one node and each connection one edge between such
nodes, and their names are found in the labels.  In the diagram of a plan each block has one
node. -/
theorem diagrams_readable :
    (∀ g : FlowGraph, g.WellFormed →
      Dot.lex g.diagram = some (Dot.documentTokens "flow" (g.statements "")) ∧
        ∃ d, Dot.read g.diagram = some d ∧ g.IsDrawing d) ∧
    (∀ sg : StageGraph, Dot.lex sg.diagram = some (Dot.documentTokens "stages" sg.statements)) ∧
    ∀ g : FlowGraph, ∃ d, Dot.read (StageGraph.plan g).1.diagram = some d ∧
      (d.nodes.map (·.id)).Perm ((StageGraph.plan g).1.blocks.map (·.id.label)) ∧
        (d.nodes.map (·.id)).Nodup := by
  refine ⟨fun g h => ⟨?_, _, g.read_diagram, FlowGraph.drawn_isDrawing h⟩, fun sg => ?_,
    fun g => ⟨_, (StageGraph.plan g).1.read_diagram, StageGraph.nodes_drawn_plan g⟩⟩
  · exact Dot.lex_document (by decide) (FlowGraph.statements_isPlain rfl)
  · exact Dot.lex_document (by decide) sg.statements_isPlain

/-- Names that end in backslashes or hold quotes and line breaks. -/
def escapedPart : FlowGraph :=
  .assemble
    [.input "\"" "Record",
      .operator "\\" { name := "", kind := "\\\"n(", resources := [] } [.plain "\\\\" "Record"]
        [.plain "\"\"" "Record"] .none,
      .output "\n" "Record"]
    [(0, 1), (2, 3)]

def escapedFlow : FlowGraph :=
  .assemble
    [.input "in" "Record", .flowPart "part\\" escapedPart, .output "out" "Record"]
    [(0, 1), (2, 3)]

theorem escapedFlow_readable : escapedFlow.WellFormed ∧
    ∃ d, Dot.read escapedFlow.diagram = some d ∧ escapedFlow.IsDrawing d ∧
      d.nodes.length = 6 ∧ d.edges.length = 4 := by
  have hpart : escapedPart.WellFormed := FlowGraph.assemble_wellFormed _ (by simp)
  have hflow : escapedFlow.WellFormed := FlowGraph.assemble_wellFormed _ (by simp [hpart])
  obtain ⟨-, d, hread, hd⟩ := diagrams_readable.1 escapedFlow hflow
  have hsites : escapedFlow.sites.length = 6 := by cbv
  have hjoints : escapedFlow.joints.length = 4 := by cbv
  refine ⟨hflow, d, hread, hd, ?_, ?_⟩
  · rw [← hd.nodes.length_eq, hsites]
  · rw [← hd.edges.length_eq, hjoints]

end FlowPlan
