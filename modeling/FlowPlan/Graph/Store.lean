import FlowPlan.Graph.Construct
import FlowPlan.Table

/-!
Flow graphs as they are stored: a table of elements, a table of ports, and the connections.

An element lists the numbers of its ports, and the table of ports has for each number what the port
carries, the element that owns it and the side that it is on.  The two tables say in part the same,
and nothing in their types makes them agree, so each change has to write both.

A port or an element that is read without being there has no value, and a change that reads one has
no result.  Reading an element only to classify it does not fail.
-/

namespace FlowPlan

/-! ## Stored graphs -/

/-- A port as the table has it. -/
structure StoredPort extends Port where
  owner : ElementId
  direction : Direction
deriving DecidableEq, Repr

mutual

inductive StoredKind
  | input
  | output
  | operator (desc : OperatorDesc)
  | pseudo
  | flowPart (inner : FlowStore)

/-- An element as the table has it: its ports are in the other table. -/
structure StoredElement where
  id : ElementId
  name : String
  kind : StoredKind
  boundary : Boundary
  inputs : List PortId
  outputs : List PortId

structure FlowStore where
  ids : IdSupply
  elements : List StoredElement
  ports : List StoredPort
  connections : List Connection

end

/-- The kind without the flow inside of a part. -/
def StoredKind.plain : StoredKind → ElementKind
  | .input => .input
  | .output => .output
  | .operator desc => .operator desc
  | .pseudo => .pseudo
  | .flowPart _ => .flowPart .empty

namespace StoredElement

/-- What an element is classified by, which is all but its ports and the flow inside of a part. -/
def plain (e : StoredElement) : Element :=
  { id := e.id, name := e.name, kind := e.kind.plain, boundary := e.boundary, inputs := [],
    outputs := [] }

/-- The numbers of all ports, the inputs first. -/
def portIds (e : StoredElement) : List PortId := e.inputs ++ e.outputs

def portsOn (e : StoredElement) : Direction → List PortId
  | .input => e.inputs
  | .output => e.outputs

end StoredElement

namespace FlowStore

def empty : FlowStore := { ids := .start, elements := [], ports := [], connections := [] }

/-! ## Reading -/

def elementIds (s : FlowStore) : List ElementId := s.elements.map (·.id)

def element? (s : FlowStore) (e : ElementId) : Option StoredElement :=
  s.elements.find? (·.id == e)

def contains (s : FlowStore) (e : ElementId) : Bool := (s.element? e).isSome

def port? (s : FlowStore) (p : PortId) : Option StoredPort := s.ports.find? (·.id == p)

/-- The owner that is stored with a port. -/
def owner? (s : FlowStore) (p : PortId) : Option ElementId := (s.port? p).map (·.owner)

/-- The declaration from which a port of another element is made like this one. -/
def decl? (s : FlowStore) (p : PortId) : Option PortDecl := (s.port? p).map (·.toPortDecl)

/-- The element is there and meets a condition. -/
def satisfies (s : FlowStore) (q : Element → Bool) (e : ElementId) : Bool :=
  (s.element? e).any fun x => q x.plain

/-- The elements that meet a condition, by number. -/
def idsWhere (s : FlowStore) (q : Element → Bool) : List ElementId :=
  (s.elements.filter fun e => q e.plain).map (·.id)

/-- The ports at the other end of a port's connections. -/
def opposites (s : FlowStore) (p : PortId) : List PortId :=
  s.connections.filterMap fun c =>
    if c.source = p then some c.target
    else if c.target = p then some c.source
    else none

/-- The connections into an element, none if it is not there. -/
def incoming (s : FlowStore) (e : ElementId) : List Connection :=
  (((s.element? e).map (·.inputs)).getD []).flatMap fun p =>
    s.connections.filter (·.target == p)

/-- The connections out of an element, none if it is not there. -/
def outgoing (s : FlowStore) (e : ElementId) : List Connection :=
  (((s.element? e).map (·.outputs)).getD []).flatMap fun p =>
    s.connections.filter (·.source == p)

/-- The owners of the targets of an element's connections, each once. -/
def successors? (s : FlowStore) (e : ElementId) : Option (List ElementId) :=
  ((s.outgoing e).mapM fun c => s.owner? c.target).map List.eraseDups

/-- The owners of the sources of an element's connections, each once. -/
def predecessors? (s : FlowStore) (e : ElementId) : Option (List ElementId) :=
  ((s.incoming e).mapM fun c => s.owner? c.source).map List.eraseDups

/-- The first ports of an element on its two sides. -/
def entry? (s : FlowStore) (e : ElementId) : Option PortId :=
  (s.element? e).bind (·.inputs.head?)

def exit? (s : FlowStore) (e : ElementId) : Option PortId :=
  (s.element? e).bind (·.outputs.head?)

/-- The data type of the first of some ports, empty if there is none. -/
def firstType? (s : FlowStore) (ports : List PortId) : Option String :=
  match ports with
  | [] => some ""
  | p :: _ => (s.port? p).map (·.type)

/-- The ports that a part holding this flow has on one side. -/
def exposed? (s : FlowStore) (q : Element → Bool) (ports : StoredElement → List PortId) :
    Option (List PortDecl) :=
  (s.elements.filter fun e => q e.plain).mapM fun e =>
    (s.firstType? (ports e)).map (.plain e.name)

def exposedInputs? (s : FlowStore) : Option (List PortDecl) := s.exposed? (·.isInput) (·.outputs)

def exposedOutputs? (s : FlowStore) : Option (List PortDecl) := s.exposed? (·.isOutput) (·.inputs)

/-! ## Adding elements -/

/-- Give a declared port a number and enter it with its owner and its side. -/
def addPort (owner : ElementId) (direction : Direction) (s : FlowStore) (d : PortDecl) :
    PortId × FlowStore :=
  let (id, ids) := s.ids.takePort
  (id, { s with ids, ports := Table.put (·.id) { d with id, owner, direction } s.ports })

def addPorts (owner : ElementId) (direction : Direction) (s : FlowStore) :
    List PortDecl → List PortId × FlowStore
  | [] => ([], s)
  | d :: ds =>
    let (id, s) := addPort owner direction s d
    let (ids, s) := addPorts owner direction s ds
    (id :: ids, s)

def addElement (s : FlowStore) (name : String) (kind : StoredKind) (boundary : Boundary)
    (inputs outputs : List PortDecl) : ElementId × FlowStore :=
  let (id, ids) := s.ids.takeElement
  let (inputs, s) := addPorts id .input { s with ids } inputs
  let (outputs, s) := addPorts id .output s outputs
  (id, { s with
    elements := Table.put (·.id) { id, name, kind, boundary, inputs, outputs } s.elements })

def addInput (s : FlowStore) (name type : String) : ElementId × FlowStore :=
  s.addElement name .input .none [] [.plain "out" type]

def addOutput (s : FlowStore) (name type : String) : ElementId × FlowStore :=
  s.addElement name .output .none [.plain "in" type] []

def addOperator (s : FlowStore) (name : String) (desc : OperatorDesc)
    (inputs outputs : List PortDecl) (boundary : Boundary) : ElementId × FlowStore :=
  s.addElement name (.operator desc) boundary inputs outputs

def addPseudo (s : FlowStore) (name type : String) (boundary : Boundary) :
    ElementId × FlowStore :=
  s.addElement name .pseudo boundary [.plain "in" type] [.plain "out" type]

def addFlowPart? (s : FlowStore) (name : String) (inner : FlowStore) :
    Option (ElementId × FlowStore) := do
  let inputs ← inner.exposedInputs?
  let outputs ← inner.exposedOutputs?
  return s.addElement name (.flowPart inner) .none inputs outputs

/-! ## Changing connections and elements -/

/-- The stored sides fit a connection, and it is not there yet. -/
def canConnect (s : FlowStore) (source target : PortId) : Bool :=
  (s.port? source).any (·.direction == .output) && (s.port? target).any (·.direction == .input)
    && !s.connections.contains { source, target }

def connect (s : FlowStore) (source target : PortId) : FlowStore :=
  if s.canConnect source target then
    { s with connections := s.connections ++ [{ source, target }] }
  else s

def connectAll (s : FlowStore) (pairs : List (PortId × PortId)) : FlowStore :=
  pairs.foldl (fun s (u, d) => s.connect u d) s

def disconnect (s : FlowStore) (source target : PortId) : FlowStore :=
  { s with connections := s.connections.filter (· ≠ { source, target }) }

/-- Remove an element, the ports that it lists, and the connections at them. -/
def removeElement (s : FlowStore) (id : ElementId) : FlowStore :=
  match s.element? id with
  | none => s
  | some e =>
    { s with
      elements := s.elements.filter (·.id ≠ id),
      ports := s.ports.filter (·.id ∉ e.portIds),
      connections := s.connections.filter fun c => c.source ∉ e.portIds ∧ c.target ∉ e.portIds }

def rename (s : FlowStore) (id : ElementId) (name : String) : FlowStore :=
  { s with elements := s.elements.map fun e => if e.id = id then { e with name } else e }

/-! ## Local changes -/

/-- Add a pseudo element, and name it for what it is once it is there. -/
def addFreshPseudo? (s : FlowStore) (type : String) (boundary : Boundary) :
    Option (ElementId × FlowStore) := do
  let (id, s) := s.addPseudo "" type boundary
  let e ← s.element? id
  return (id, s.rename id s!"{e.plain.kindLabel}#{id}")

/-- Put a pseudo element of the source port's type onto a connection. -/
def insertPseudoOn? (s : FlowStore) (c : Connection) (boundary : Boundary) : Option FlowStore := do
  let port ← s.port? c.source
  let (id, s) ← s.addFreshPseudo? port.type boundary
  let s := s.disconnect c.source c.target
  let entry ← s.entry? id
  let exit ← s.exit? id
  return (s.connect c.source entry).connect exit c.target

/-- Put a pseudo element behind an output port and move all connections of the port behind it. -/
def insertPseudoAfter? (s : FlowStore) (p : PortId) (boundary : Boundary) : Option FlowStore := do
  let port ← s.port? p
  let targets := s.opposites p
  let (id, s) ← s.addFreshPseudo? port.type boundary
  let entry ← s.entry? id
  let exit ← s.exit? id
  let s := targets.foldl (fun s d => (s.disconnect p d).connect exit d) s
  return s.connect p entry

/-- Remove an element and connect what fed it to what it fed. -/
def bypass (s : FlowStore) (e : ElementId) : FlowStore :=
  let bridges := (s.incoming e).flatMap fun i => (s.outgoing e).map fun o => (i.source, o.target)
  (s.removeElement e).connectAll bridges

end FlowStore
end FlowPlan
