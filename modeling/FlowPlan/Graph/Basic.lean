import FlowPlan.Ids

/-!
Flow graphs: operators and other elements, their ports, and the connections between ports.

A graph lists its elements in the order of their numbers and its connections in the order in which
they were made.  An element holds its ports itself.  A graph is stored in two tables, one of
elements and one of ports, which have to be kept in agreement; `FlowStore` is that form of it.
-/

namespace FlowPlan

/-- Where a stage has to end or begin relative to an element. -/
inductive Boundary
  | none
  /-- On a pseudo element: its records are materialized.  On an operator: it begins a stage. -/
  | stage
  /-- The records entering the element are shuffled. -/
  | shuffle
deriving DecidableEq, Repr

namespace Boundary

def name : Boundary → String
  | none => "none"
  | stage => "stage"
  | shuffle => "shuffle"

def ofName? (s : String) : Option Boundary := [none, stage, shuffle].find? (·.name = s)

end Boundary

inductive SortDirection
  | ascending
  | descending
deriving DecidableEq, Repr

namespace SortDirection

def name : SortDirection → String
  | ascending => "ascending"
  | descending => "descending"

def ofName? (s : String) : Option SortDirection := [ascending, descending].find? (·.name = s)

end SortDirection

structure KeyOrder where
  property : String
  direction : SortDirection
deriving DecidableEq, Repr

/-- How the records entering a port are shuffled: grouped by some properties, and sorted within a
group by others. -/
structure ShuffleKey where
  group : List String
  order : List KeyOrder
deriving DecidableEq, Repr

/-- A port as it is declared, before it has a number. -/
structure PortDecl where
  name : String
  type : String
  /-- An optional port may stay without a connection. -/
  optional : Bool
  key : Option ShuffleKey
deriving DecidableEq, Repr

namespace PortDecl

/-- A mandatory port without a key. -/
def plain (name type : String) : PortDecl := { name, type, optional := false, key := none }

end PortDecl

structure Port extends PortDecl where
  id : PortId
deriving DecidableEq, Repr

inductive Direction
  | input
  | output
deriving DecidableEq, Repr

namespace Direction

def name : Direction → String
  | input => "input"
  | output => "output"

end Direction

/-- The user logic of an operator.  Its kind selects the processor; its resources are side data. -/
structure OperatorDesc where
  name : String
  kind : String
  resources : List String
deriving DecidableEq, Repr

/-- Records leave the source port and enter the target port. -/
structure Connection where
  source : PortId
  target : PortId
deriving DecidableEq, Repr

mutual

inductive ElementKind
  | input
  | output
  | operator (desc : OperatorDesc)
  /-- Passes its records on, materialized at a stage boundary. -/
  | pseudo
  /-- A nested flow; its ports stand for the inputs and outputs of that flow. -/
  | flowPart (inner : FlowGraph)

structure Element where
  id : ElementId
  name : String
  kind : ElementKind
  boundary : Boundary
  inputs : List Port
  outputs : List Port

structure FlowGraph where
  ids : IdSupply
  elements : List Element
  connections : List Connection

end

namespace ElementKind

def isInput : ElementKind → Bool
  | input => true
  | _ => false

def isOutput : ElementKind → Bool
  | output => true
  | _ => false

def isPseudo : ElementKind → Bool
  | pseudo => true
  | _ => false

def isFlowPart : ElementKind → Bool
  | flowPart _ => true
  | _ => false

def operator? : ElementKind → Option OperatorDesc
  | operator desc => some desc
  | _ => none

end ElementKind

namespace Element

/-- All ports, the inputs first. -/
def ports (e : Element) : List Port := e.inputs ++ e.outputs

def owns (e : Element) (p : PortId) : Bool := e.ports.any (·.id == p)

def isInput (e : Element) : Bool := e.kind.isInput

def isOutput (e : Element) : Bool := e.kind.isOutput

def isPseudo (e : Element) : Bool := e.kind.isPseudo

def isFlowPart (e : Element) : Bool := e.kind.isFlowPart

def operator? (e : Element) : Option OperatorDesc := e.kind.operator?

def isCheckpoint (e : Element) : Bool := e.isPseudo && e.boundary == .stage

def isIdentity (e : Element) : Bool := e.isPseudo && e.boundary == .none

/-- Inputs, outputs and checkpoints: the data is materialized here. -/
def isStageBoundary (e : Element) : Bool := e.isInput || e.isOutput || e.isCheckpoint

def isShuffleBoundary (e : Element) : Bool := e.boundary == .shuffle

def isBoundary (e : Element) : Bool := e.isStageBoundary || e.isShuffleBoundary

/-- An operator that has to read materialized data. -/
def isStageHead (e : Element) : Bool := e.operator?.isSome && e.boundary == .stage

def kindLabel (e : Element) : String :=
  match e.kind with
  | .input => "input"
  | .output => "output"
  | .operator _ => "operator"
  | .pseudo => if e.boundary = .stage then "checkpoint" else "identity"
  | .flowPart _ => "flow-part"

/-- The kind of work an operator does; other elements do none. -/
def workKind (e : Element) : String := (e.operator?.map (·.kind)).getD ""

end Element

namespace FlowGraph

/-- A graph with nothing in it. -/
def empty : FlowGraph := { ids := .start, elements := [], connections := [] }

theorem sizeOf_element_lt {g : FlowGraph} {e : Element} (h : e ∈ g.elements) :
    sizeOf e < sizeOf g := by
  have := List.sizeOf_lt_of_mem h
  cases g
  simp only [FlowGraph.mk.sizeOf_spec] at this ⊢
  omega

/-- A nested flow is smaller than the flow that holds it, so recursion into the parts ends. -/
theorem sizeOf_inner_lt {g inner : FlowGraph} {e : Element} (h : e ∈ g.elements)
    (hk : e.kind = .flowPart inner) : sizeOf inner < sizeOf g := by
  refine Nat.lt_trans ?_ (sizeOf_element_lt h)
  cases e
  simp only at hk
  subst hk
  simp only [Element.mk.sizeOf_spec, ElementKind.flowPart.sizeOf_spec]
  omega

def elementIds (g : FlowGraph) : List ElementId := g.elements.map (·.id)

def size (g : FlowGraph) : Nat := g.elements.length

def element? (g : FlowGraph) (e : ElementId) : Option Element := g.elements.find? (·.id == e)

def contains (g : FlowGraph) (e : ElementId) : Bool := g.elements.any (·.id == e)

/-- The first element of that name. -/
def find? (g : FlowGraph) (name : String) : Option ElementId :=
  (g.elements.find? (·.name == name)).map (·.id)

/-- The element that holds a port. -/
def owner? (g : FlowGraph) (p : PortId) : Option Element := g.elements.find? (·.owns p)

def ownerId? (g : FlowGraph) (p : PortId) : Option ElementId := (g.owner? p).map (·.id)

def port? (g : FlowGraph) (p : PortId) : Option Port :=
  (g.owner? p).bind fun e => e.ports.find? (·.id == p)

def isInputPort (g : FlowGraph) (p : PortId) : Bool :=
  g.elements.any fun e => e.inputs.any (·.id == p)

def isOutputPort (g : FlowGraph) (p : PortId) : Bool :=
  g.elements.any fun e => e.outputs.any (·.id == p)

def direction? (g : FlowGraph) (p : PortId) : Option Direction :=
  if g.isInputPort p then some .input else if g.isOutputPort p then some .output else none

/-- The data type of a port; a port that is not there has the empty type. -/
def portType (g : FlowGraph) (p : PortId) : String := ((g.port? p).map (·.type)).getD ""

/-- The ports of an element on one side, none if it is not there. -/
def inputsOf (g : FlowGraph) (e : ElementId) : List Port := ((g.element? e).map (·.inputs)).getD []

def outputsOf (g : FlowGraph) (e : ElementId) : List Port :=
  ((g.element? e).map (·.outputs)).getD []

def portsOf (g : FlowGraph) (d : Direction) (e : ElementId) : List Port :=
  match d with
  | .input => g.inputsOf e
  | .output => g.outputsOf e

/-- The first port of that name on one side of an element. -/
def portNamed? (g : FlowGraph) (d : Direction) (e : ElementId) (name : String) : Option PortId :=
  ((g.portsOf d e).find? (·.name == name)).map (·.id)

/-- The name of an element; one that is not there has the empty name. -/
def nameOf (g : FlowGraph) (e : ElementId) : String := ((g.element? e).map (·.name)).getD ""

/-- The name of a port together with its element's name, for messages and dumps. -/
def portLabel (g : FlowGraph) (p : PortId) : String :=
  match g.owner? p, g.port? p with
  | some e, some port => s!"{e.name}.{port.name}"
  | _, _ => PortId.label p

def hasFlowParts (g : FlowGraph) : Bool := g.elements.any (·.isFlowPart)

/-- The sum of some counts. -/
def total (counts : List Nat) : Nat := counts.foldr (· + ·) 0

/-- The flow parts at all depths. -/
def partCount (g : FlowGraph) : Nat :=
  total (g.elements.attach.map fun ⟨e, _⟩ =>
    match _hk : e.kind with
    | .flowPart inner => inner.partCount + 1
    | _ => 0)
termination_by sizeOf g
decreasing_by exact sizeOf_inner_lt (by assumption) (by assumption)

/-- The ports that a flow part holding this graph has: one input for each input of the graph, one
output for each output, in the order of the elements. -/
def exposedInputs (g : FlowGraph) : List PortDecl :=
  (g.elements.filter (·.isInput)).map fun e =>
    .plain e.name ((e.outputs.head?.map (·.type)).getD "")

def exposedOutputs (g : FlowGraph) : List PortDecl :=
  (g.elements.filter (·.isOutput)).map fun e =>
    .plain e.name ((e.inputs.head?.map (·.type)).getD "")

end FlowGraph
end FlowPlan
