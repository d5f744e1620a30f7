import FlowPlan.Compilation.Run
import FlowPlan.DataClass
import FlowPlan.Json.Decode
import FlowPlan.Processor

/-!
Manifest documents: what a JSON manifest says, before any name in it is looked up.

The manifest itself, its flows, their elements and the options refuse members that they do not
declare.  Data classes, processors, ports and keys ignore them.
-/

namespace FlowPlan

/-- A port as it is written; a bare name is a port of which nothing else is said. -/
structure PortDocument where
  name : String
  type : Option String
  optional : Bool
  key : Option ShuffleKey
deriving DecidableEq, Repr

mutual

/-- A flow as it is written. -/
inductive FlowDocument
  | mk (type : Option String) (elements : List ElementDocument)
      (connections : List (String × String))

/-- An element as it is written.  Ports and types that are not given come from the flow. -/
inductive ElementDocument
  | input (name : String) (type : Option String)
  | output (name : String) (type : Option String)
  | operator (name kind : String) (inputs outputs : List PortDocument) (boundary : Boundary)
      (resources : List String)
  | pseudo (name : String) (type : Option String) (boundary : Boundary)
  | flowPart (name : String) (flow : FlowDocument)

end

structure ManifestDocument where
  name : Option String
  options : Option CompilerOptions
  dataClasses : List DataClass
  processors : List Processor
  flow : FlowDocument

namespace ManifestDocument

open Json

def options? (v : Json) : Option CompilerOptions := do
  match ← v.fields? .refused ["parallel", "certify"] with
  | [parallel, certify] =>
    return { parallel := ← optional? bool? CompilerOptions.default.parallel parallel,
             certify := ← optional? bool? CompilerOptions.default.certify certify }
  | _ => none

/-- Directions are named by a string, or by an object with `null` under the name. -/
def keyOrder? (v : Json) : Option KeyOrder := do
  match ← v.fields? .ignored ["property", "direction"] with
  | [property, direction] =>
    return { property := ← required? text? property,
             direction := ← required? (choice? SortDirection.ofName?) direction }
  | _ => none

def key? (v : Json) : Option ShuffleKey := do
  match ← v.fields? .ignored ["group", "order"] with
  | [group, order] =>
    return { group := ← optional? (list? text?) [] group,
             order := ← optional? (list? keyOrder?) [] order }
  | _ => none

/-- A port is a name or an object, never an array. -/
def port? : Json → Option PortDocument
  | .text s => s.map fun name => { name, type := none, optional := false, key := none }
  | .object members => do
    match ← fieldsOfMembers? .ignored ["name", "type", "optional", "key"] members with
    | [name, type, optional, key] =>
      return { name := ← required? text? name, type := ← optional? (nullable? text?) none type,
               optional := ← optional? bool? false optional,
               key := ← optional? (nullable? key?) none key }
    | _ => none
  | _ => none

/-- A boundary may also stand as a name with an empty object under it. -/
def boundary? (v : Json) : Option Boundary :=
  match v with
  | .object [(some s, .object [])] => Boundary.ofName? s
  | v => choice? Boundary.ofName? v

def connection? : Json → Option (String × String)
  | .array [u, d] => do return (← u.text?, ← d.text?)
  | _ => none

def elementKinds : List String := ["input", "output", "operator", "pseudo", "flow_part"]

/-- The kind of an element.  Inside a flow part it may also be given by its position. -/
def elementKind? (nested : Bool) : Json → Option String
  | .text (some s) => if s ∈ elementKinds then some s else none
  | .number n => if nested then n.index?.bind (elementKinds[·]?) else none
  | _ => none

/-- The kind of an element and the rest of it.  Written as an array, the kind comes first. -/
def splitKind? (nested : Bool) : Json → Option (String × Json)
  | .array (kind :: fields) => do return (← elementKind? nested kind, .array fields)
  | .object members => do
    match members.filter (·.1 = some "kind") with
    | [(_, kind)] =>
      return (← elementKind? nested kind, .object (members.filter (·.1 ≠ some "kind")))
    | _ => none
  | _ => none

/-- The declared fields of a flow. -/
def flowFields? (v : Json) : Option (List (Option Json)) :=
  v.fields? .refused ["type", "elements", "connections"]

mutual

/-- An element whose flow parts are nested no deeper than the given number of levels. -/
def element? (levels : Nat) (nested : Bool) (v : Json) : Option ElementDocument := do
  let (kind, rest) ← splitKind? nested v
  match kind with
  | "input" =>
    match ← rest.fields? .refused ["name", "type"] with
    | [name, type] =>
      return .input (← required? text? name) (← optional? (nullable? text?) none type)
    | _ => none
  | "output" =>
    match ← rest.fields? .refused ["name", "type"] with
    | [name, type] =>
      return .output (← required? text? name) (← optional? (nullable? text?) none type)
    | _ => none
  | "operator" =>
    match ← rest.fields? .refused
        ["name", "operator", "inputs", "outputs", "boundary", "resources"] with
    | [name, kind, inputs, outputs, boundary, resources] =>
      return .operator (← required? text? name) (← required? text? kind)
        (← optional? (list? port?) [] inputs) (← optional? (list? port?) [] outputs)
        (← optional? boundary? .none boundary) (← optional? (list? text?) [] resources)
    | _ => none
  | "pseudo" =>
    match ← rest.fields? .refused ["name", "type", "boundary"] with
    | [name, type, boundary] =>
      return .pseudo (← required? text? name) (← optional? (nullable? text?) none type)
        (← optional? boundary? .none boundary)
    | _ => none
  | _ =>
    match levels with
    | 0 => none
    | levels + 1 =>
      match ← rest.fields? .refused ["name", "flow"] with
      | [name, flow] =>
        return .flowPart (← required? text? name) (← required? (flow? levels true) flow)
      | _ => none

def flow? (levels : Nat) (nested : Bool) (v : Json) : Option FlowDocument := do
  match ← flowFields? v with
  | [type, elements, connections] =>
    return .mk (← optional? (nullable? text?) none type)
      (← required? (list? (element? levels nested)) elements)
      (← optional? (list? connection?) [] connections)
  | _ => none

end

/-- Arrays and objects may be nested one level less than this in what is read. -/
def nestingLimit : Nat := 128

/-- The elements of the outermost flow are read as a whole, what they ignore included.  They stand
in the manifest, in its flow and in a list, and so are nested three levels deep themselves. -/
def elementsAreReadable (flow : Json) : Bool :=
  match flowFields? flow with
  | some [_, some (.array elements), _] =>
    elements.all fun e => e.isReadable && e.nesting + 3 < nestingLimit
  | _ => true

/-- A flow part lies at least one level deeper than the flow that holds it. -/
def outermostFlow? (v : Json) : Option FlowDocument :=
  if elementsAreReadable v then flow? v.nesting false v else none

def ofJson? (v : Json) : Option ManifestDocument := do
  match ← v.fields? .refused ["name", "options", "data_classes", "processors", "flow"] with
  | [name, options, dataClasses, processors, flow] =>
    return { name := ← optional? (nullable? text?) none name,
             options := ← optional? (nullable? options?) none options,
             dataClasses := ← optional? (list? DataClass.ofJson?) [] dataClasses,
             processors := ← optional? (list? Processor.ofJson?) [] processors,
             flow := ← required? outermostFlow? flow }
  | _ => none

def parse? (source : String) : Option ManifestDocument := do ofJson? (← Json.parse? source)

end ManifestDocument
end FlowPlan
