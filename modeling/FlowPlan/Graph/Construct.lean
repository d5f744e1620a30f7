import FlowPlan.Graph.Query

/-!
Building and changing flow graphs.

Adding an element never fails, and the number of the new element is the next free one of the graph
before the change.  A connection is made only from an output port to an input port that are both
there, and only once.
-/

namespace FlowPlan

/-- An element as it is declared, before it and its ports have numbers. -/
structure ElementDecl where
  name : String
  kind : ElementKind
  boundary : Boundary
  inputs : List PortDecl
  outputs : List PortDecl

namespace ElementDecl

def input (name type : String) : ElementDecl :=
  { name, kind := .input, boundary := .none, inputs := [], outputs := [.plain "out" type] }

def output (name type : String) : ElementDecl :=
  { name, kind := .output, boundary := .none, inputs := [.plain "in" type], outputs := [] }

def operator (name : String) (desc : OperatorDesc) (inputs outputs : List PortDecl)
    (boundary : Boundary) : ElementDecl :=
  { name, kind := .operator desc, boundary, inputs, outputs }

/-- An element that passes its records on: a checkpoint at a stage boundary, and an identity
without a boundary. -/
def pseudo (name type : String) (boundary : Boundary) : ElementDecl :=
  { name, kind := .pseudo, boundary, inputs := [.plain "in" type],
    outputs := [.plain "out" type] }

/-- A nested flow, with the ports that it exposes. -/
def flowPart (name : String) (inner : FlowGraph) : ElementDecl :=
  { name, kind := .flowPart inner, boundary := .none,
    inputs := inner.exposedInputs, outputs := inner.exposedOutputs }

end ElementDecl

namespace FlowGraph

/-- Give the declared ports numbers in turn. -/
def numberPorts (ids : IdSupply) : List PortDecl → List Port × IdSupply
  | [] => ([], ids)
  | d :: ds =>
    let (id, ids) := ids.takePort
    let (ports, ids) := numberPorts ids ds
    ({ d with id } :: ports, ids)

/-- The element that a declaration becomes, with the numbers that are left; its input ports are
numbered before its output ports. -/
def allot (ids : IdSupply) (d : ElementDecl) : Element × IdSupply :=
  let (id, ids) := ids.takeElement
  let (inputs, ids) := numberPorts ids d.inputs
  let (outputs, ids) := numberPorts ids d.outputs
  ({ id, name := d.name, kind := d.kind, boundary := d.boundary, inputs, outputs }, ids)

/-- The element that a declaration becomes in this graph. -/
def numbered (g : FlowGraph) (d : ElementDecl) : Element := (allot g.ids d).1

def add (g : FlowGraph) (d : ElementDecl) : FlowGraph :=
  { g with ids := (allot g.ids d).2, elements := g.elements ++ [g.numbered d] }

/-- A connection that is possible and not there yet. -/
def canConnect (g : FlowGraph) (source target : PortId) : Bool :=
  g.isOutputPort source && g.isInputPort target
    && !g.connections.contains { source, target }

/-- Connect two ports if that is possible; otherwise nothing changes. -/
def connect (g : FlowGraph) (source target : PortId) : FlowGraph :=
  if g.canConnect source target then
    { g with connections := g.connections ++ [{ source, target }] }
  else g

def disconnect (g : FlowGraph) (source target : PortId) : FlowGraph :=
  { g with connections := g.connections.filter (· ≠ { source, target }) }

/-- Connect each pair of ports in turn. -/
def connectAll (g : FlowGraph) (pairs : List (PortId × PortId)) : FlowGraph :=
  pairs.foldl (fun g (u, d) => g.connect u d) g

/-- A connection that begins or ends at a port of the element. -/
def touches (e : Element) (c : Connection) : Bool := e.owns c.source || e.owns c.target

/-- Remove an element with its ports and the connections at them. -/
def removeElement (g : FlowGraph) (id : ElementId) : FlowGraph :=
  match g.element? id with
  | none => g
  | some e =>
    { g with
      elements := g.elements.filter (·.id ≠ id),
      connections := g.connections.filter fun c => !touches e c }

def rename (g : FlowGraph) (id : ElementId) (name : String) : FlowGraph :=
  { g with elements := g.elements.map fun e => if e.id = id then { e with name } else e }

/-! ## Local changes -/

/-- Add a pseudo element named for its kind and number, carrying one data type. -/
def addFreshPseudo (g : FlowGraph) (type : String) (boundary : Boundary) : FlowGraph :=
  let label := if boundary = .stage then "checkpoint" else "identity"
  g.add (.pseudo s!"{label}#{g.ids.nextElement}" type boundary)

/-- Put a pseudo element of the source port's type onto a connection. -/
def insertPseudoOn (g : FlowGraph) (c : Connection) (boundary : Boundary) : FlowGraph :=
  let entry := g.ids.nextPort
  let exit := g.ids.nextPort + 1
  let g' := g.addFreshPseudo (g.portType c.source) boundary
  ((g'.disconnect c.source c.target).connect c.source entry).connect exit c.target

/-- Put a pseudo element behind an output port and move all connections of the port behind it. -/
def insertPseudoAfter (g : FlowGraph) (p : PortId) (boundary : Boundary) : FlowGraph :=
  let entry := g.ids.nextPort
  let exit := g.ids.nextPort + 1
  let g' := g.addFreshPseudo (g.portType p) boundary
  let moved := (g.opposites p).foldl (fun g d => (g.disconnect p d).connect exit d) g'
  moved.connect p entry

/-- A change at a port needs the port. -/
def insertPseudoOn? (g : FlowGraph) (c : Connection) (boundary : Boundary) : Option FlowGraph :=
  if (g.owner? c.source).isSome then some (g.insertPseudoOn c boundary) else none

def insertPseudoAfter? (g : FlowGraph) (p : PortId) (boundary : Boundary) : Option FlowGraph :=
  if (g.owner? p).isSome then some (g.insertPseudoAfter p boundary) else none

/-- The connections that replace an element: everything that feeds it to everything that it
feeds. -/
def bridges (g : FlowGraph) (e : ElementId) : List (PortId × PortId) :=
  (g.incoming e).flatMap fun i => (g.outgoing e).map fun o => (i.source, o.target)

/-- Remove an element and connect what fed it to what it fed. -/
def bypass (g : FlowGraph) (e : ElementId) : FlowGraph :=
  (g.removeElement e).connectAll (g.bridges e)

end FlowGraph
end FlowPlan
