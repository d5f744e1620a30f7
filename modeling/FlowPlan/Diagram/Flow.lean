import FlowPlan.Diagram.Dot
import FlowPlan.Graph.Query

/-!
The diagram of a flow graph: a node for each element, an edge for each connection, and a cluster
for each nested flow.

The node of an element inside a part carries the nodes of the enclosing parts in front of its
number, so nodes of different flows never share a name.
-/

namespace FlowPlan
namespace FlowGraph

def shapeOf (e : Element) : String :=
  match e.kind, e.boundary with
  | .input, _ => "cylinder"
  | .output, _ => "cylinder"
  | .pseudo, .stage => "doublecircle"
  | .pseudo, _ => "circle"
  | .operator _, .shuffle => "box3d"
  | .operator _, _ => "box"
  | .flowPart _, _ => "folder"

def colorOf (e : Element) : String :=
  match e.kind, e.boundary with
  | .input, _ => "lightsalmon"
  | .output, _ => "lightsalmon"
  | .pseudo, .stage => "lightyellow"
  | .pseudo, _ => "white"
  | .operator _, .shuffle => "lightgreen"
  | .operator _, _ => "lightblue"
  | .flowPart _, _ => "gray90"

/-- An operator shows its kind in a second line. -/
def labelOf (e : Element) : List Dot.Piece :=
  match e.kind with
  | .operator desc => [.text e.name, .lineBreak, .text "(", .text desc.kind, .text ")"]
  | _ => [.text e.name]

/-- The box of something with a shape, a colour and a label. -/
def box (shape color : String) (label : List Dot.Piece) : List Dot.Attribute :=
  [⟨"shape", .word shape⟩, ⟨"style", .word "filled"⟩, ⟨"fillcolor", .word color⟩,
    ⟨"label", .quoted label⟩]

/-- The node of an element, where the path holds the nodes of the enclosing parts. -/
def nodeName (path : String) (e : ElementId) : String := path ++ e.label

def portName (g : FlowGraph) (p : PortId) : String := ((g.port? p).map (·.name)).getD ""

def edgeOf (g : FlowGraph) (path : String) (c : Connection) : Dot.Statement :=
  .edge (nodeName path ((g.ownerId? c.source).getD 0))
    (nodeName path ((g.ownerId? c.target).getD 0))
    [⟨"taillabel", .string (g.portName c.source)⟩,
      ⟨"headlabel", .string (g.portName c.target)⟩]

/-- The statements of a flow at some depth: its elements, then its connections. -/
def statements (path : String) (g : FlowGraph) : List Dot.Statement :=
  (g.elements.attach.flatMap fun ⟨e, _⟩ =>
    let node := nodeName path e.id
    match _hk : e.kind with
    | .flowPart inner =>
      [.blank,
        .cluster node
          ([.setting ⟨"label", .quoted [.text "flow part: ", .text e.name]⟩,
            .setting ⟨"style", .word "dashed"⟩,
            .setting ⟨"color", .word "gray50"⟩,
            .node node [⟨"shape", .word "point"⟩, ⟨"label", .quoted []⟩]]
            ++ statements (node ++ "_") inner)]
    | _ => [.node node (box (shapeOf e) (colorOf e) (labelOf e))])
  ++ .blank :: g.connections.map (g.edgeOf path)
termination_by sizeOf g
decreasing_by exact sizeOf_inner_lt (by assumption) (by assumption)

/-- The diagram of a flow graph, nested flows and all. -/
def diagram (g : FlowGraph) : String := Dot.document "flow" (statements "" g)

end FlowGraph
end FlowPlan
