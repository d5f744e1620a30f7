import FlowPlan.Graph.Query

/-!
A flow graph as text: a line for each element, then a line for each connection.
-/

namespace FlowPlan
namespace FlowGraph

/-- An operator shows its kind and the boundary it asks for; other elements show neither. -/
def operatorNote (e : Element) : String :=
  match e.operator? with
  | none => ""
  | some desc =>
    let mark := match e.boundary with
      | .none => ""
      | .stage => " @stage"
      | .shuffle => " @shuffle"
    s!" [{desc.kind}]{mark}"

def elementLine (e : Element) : String :=
  s!"{e.id.label} {e.kindLabel} `{e.name}`{operatorNote e}\n"

def connectionLine (g : FlowGraph) (c : Connection) : String :=
  s!"{g.portLabel c.source} -> {g.portLabel c.target}\n"

def text (g : FlowGraph) : String :=
  String.join (g.elements.map elementLine ++ g.connections.map g.connectionLine)

end FlowGraph
end FlowPlan
