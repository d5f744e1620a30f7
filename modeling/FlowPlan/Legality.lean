import FlowPlan.Diagnostic
import FlowPlan.Graph.Cycle
import FlowPlan.NormalForm.Flat

/-!
Legal flow graphs: every mandatory port is connected, the ports of every nested flow can be told
apart, and no element feeds itself, directly or through others.

Ports are checked at every depth.  Cycles are searched in the flattened graph, where a path through
a nested flow is a path like any other.  A check never stops at the first fault.
-/

namespace FlowPlan
namespace Legality

/-- What can be wrong with a graph.  Element names are qualified by the parts around them. -/
inductive Fault
  | unconnected (element : ElementRef) (port : String)
  | portMismatch (element : ElementRef) (inputs outputs innerInputs innerOutputs : List String)
  | repeatedPort (element : ElementRef) (port : String)
  | cycle (first : ElementRef) (path : List String)
deriving DecidableEq, Repr

namespace Fault

def diagnostic : Fault → Diagnostic
  | unconnected element port =>
    (Diagnostic.errorAt .unconnectedPort element
      s!"mandatory port `{element.name}.{port}` is not connected").withHint
      "connect the port or declare it optional"
  | portMismatch element inputs outputs innerInputs innerOutputs =>
    let list (names : List String) := String.intercalate ", " names
    Diagnostic.errorAt .ambiguousPart element
      (s!"flow part `{element.name}` exposes ports ({list inputs}) -> ({list outputs}) "
        ++ s!"but its flow declares ({list innerInputs}) -> ({list innerOutputs})")
  | repeatedPort element port =>
    (Diagnostic.errorAt .ambiguousPart element
      s!"flow part `{element.name}` declares port `{port}` more than once").withHint
      "give every input and output of the flow a distinct name"
  | cycle first path =>
    Diagnostic.errorAt .cycle first
      ("flow graph contains a cycle: " ++ String.intercalate " -> " (path ++ path.take 1))

end Fault

/-- The first name that occurred before. -/
def firstRepeated : List String → List String → Option String
  | _, [] => none
  | seen, n :: ns => if n ∈ seen then some n else firstRepeated (n :: seen) ns

def repeated? (names : List String) : Option String := firstRepeated [] names

/-- The mandatory ports of an element that have no connection. -/
def portFaults (g : FlowGraph) (ref : ElementRef) (e : Element) : List Fault :=
  (e.ports.filter fun p => !p.optional && !g.isConnected p.id).map fun p =>
    .unconnected ref p.name

/-- A part has the ports that its flow exposes, and their names differ within each side. -/
def partFaults (ref : ElementRef) (e : Element) (inner : FlowGraph) : List Fault :=
  let inputs := e.inputs.map (·.name)
  let outputs := e.outputs.map (·.name)
  let innerInputs := inner.exposedInputs.map (·.name)
  let innerOutputs := inner.exposedOutputs.map (·.name)
  if inputs ≠ innerInputs ∨ outputs ≠ innerOutputs then
    [.portMismatch ref inputs outputs innerInputs innerOutputs]
  else match (repeated? innerInputs).or (repeated? innerOutputs) with
    | some port => [.repeatedPort ref port]
    | none => []

/-- The faults of ports and parts at all depths, each element before its inner flow.  The path is
put in front of every name. -/
def structureFaults (path : String) (g : FlowGraph) : List Fault :=
  g.elements.attach.flatMap fun ⟨e, _⟩ =>
    let ref : ElementRef := { id := e.id, name := path ++ e.name }
    portFaults g ref e ++
      match _hk : e.kind with
      | .flowPart inner =>
        partFaults ref e inner ++ structureFaults (path ++ e.name ++ ".") inner
      | _ => []
termination_by sizeOf g
decreasing_by exact FlowGraph.sizeOf_inner_lt (by assumption) (by assumption)

/-- The fault that a cycle of a flat graph is. -/
def cycleFault (flat : FlowGraph) (path : List ElementId) : Fault :=
  let first := path.headD 0
  .cycle { id := first, name := flat.nameOf first } (path.map flat.nameOf)

def cycleFaults (g : FlowGraph) : List Fault :=
  let flat := g.flatten.1
  flat.cycles.map (cycleFault flat)

end Legality

namespace FlowGraph

/-- Everything that is wrong with a graph. -/
def faults (g : FlowGraph) : List Legality.Fault :=
  Legality.structureFaults "" g ++ Legality.cycleFaults g

/-- The graph may be compiled. -/
def isLegal (g : FlowGraph) : Bool := g.faults.isEmpty

end FlowGraph
end FlowPlan
