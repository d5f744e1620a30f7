import FlowPlan.Graph.Construct
import FlowPlan.Words

/-!
Drafts: flow graphs under construction, whose elements are addressed by name.

A draft keeps the first mistake and ignores every step after it, so a whole flow can be written
down before anything is checked.  A reference names a port as `element.port`, or as the element
alone when it has one port in the direction asked for.
-/

namespace FlowPlan

inductive DraftError
  | duplicate (name : String)
  | unknownElement (name : String)
  | unknownPort (element port : String) (direction : Direction)
  | ambiguousPort (element : String) (count : Nat) (direction : Direction)
deriving DecidableEq, Repr

namespace DraftError

def message : DraftError → String
  | duplicate name => s!"element `{name}` is defined more than once"
  | unknownElement name => s!"unknown element `{name}`"
  | unknownPort element port direction =>
    s!"element `{element}` has no {direction.name} port `{port}`"
  | ambiguousPort element count direction =>
    s!"element `{element}` has {count} {direction.name} ports; "
      ++ s!"name one as `{element}.<port>`"

end DraftError

structure Draft where
  graph : FlowGraph
  /-- Every name that an element was given, with the element. -/
  names : List (String × ElementId)
  /-- The type of ports that do not name one. -/
  type : String
  error : Option DraftError

namespace Draft

/-- One thing to do with a draft.  Where a type may be left out, the draft has one. -/
inductive Step
  | input (name : String) (type : Option String)
  | output (name : String) (type : Option String)
  | pseudo (name : String) (type : Option String) (boundary : Boundary)
  | operator (name : String) (desc : OperatorDesc) (inputs outputs : List PortDecl)
      (boundary : Boundary)
  | flowPart (name : String) (inner : FlowGraph)
  | connect (source target : String)

/-- The type that ports have unless a flow says otherwise. -/
def defaultType : String := "Record"

def start (type : String) : Draft := { graph := .empty, names := [], type, error := none }

/-- The element of that name. -/
def id? (d : Draft) (name : String) : Option ElementId := d.names.lookup name

/-- Add an element if its name is still free. -/
def claim (d : Draft) (e : ElementDecl) : Draft :=
  if d.error.isSome then d
  else if (d.id? e.name).isSome then { d with error := some (.duplicate e.name) }
  else { d with
    graph := d.graph.add e, names := d.names ++ [(e.name, d.graph.ids.nextElement)] }

/-- The parts of a reference in front of and behind its last dot. -/
def splitReference? (reference : String) : Option (String × String) :=
  let backwards := reference.toList.reverse
  match backwards.dropWhile (· ≠ '.') with
  | [] => none
  | _ :: element =>
    some (String.ofList element.reverse, String.ofList (backwards.takeWhile (· ≠ '.')).reverse)

/-- The port that a reference means.  The name of an element takes precedence, dots and all. -/
def resolve (d : Draft) (reference : String) (direction : Direction) : Except DraftError PortId :=
  match d.id? reference with
  | some e =>
    match d.graph.portsOf direction e with
    | [p] => .ok p.id
    | ps => .error (.ambiguousPort reference ps.length direction)
  | none =>
    match splitReference? reference with
    | none => .error (.unknownElement reference)
    | some (element, port) =>
      match d.id? element with
      | none => .error (.unknownElement element)
      | some e =>
        match d.graph.portNamed? direction e port with
        | some p => .ok p
        | none => .error (.unknownPort element port direction)

def resolveBoth (d : Draft) (source target : String) :
    Except DraftError (PortId × PortId) := do
  let u ← d.resolve source .output
  let v ← d.resolve target .input
  return (u, v)

def connect (d : Draft) (source target : String) : Draft :=
  if d.error.isSome then d
  else match d.resolveBoth source target with
    | .ok (u, v) => { d with graph := d.graph.connect u v }
    | .error e => { d with error := some e }

def apply (d : Draft) : Step → Draft
  | .input name type => d.claim (.input name (type.getD d.type))
  | .output name type => d.claim (.output name (type.getD d.type))
  | .pseudo name type boundary => d.claim (.pseudo name (type.getD d.type) boundary)
  | .operator name desc inputs outputs boundary =>
    d.claim (.operator name desc inputs outputs boundary)
  | .flowPart name inner => d.claim (.flowPart name inner)
  | .connect source target => d.connect source target

def applyAll (d : Draft) (steps : List Step) : Draft := steps.foldl apply d

/-- The finished graph, or the first mistake. -/
def finish (d : Draft) : Except DraftError FlowGraph :=
  match d.error with
  | some e => .error e
  | none => .ok d.graph

/-- Ports with the given names and the draft's type, all of them optional or none. -/
def portsNamed (d : Draft) (names : String) (optional : Bool) : List PortDecl :=
  (words names).map fun name => { name, type := d.type, optional, key := none }

end Draft
end FlowPlan
