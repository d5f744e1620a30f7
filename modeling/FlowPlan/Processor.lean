import FlowPlan.Catalog
import FlowPlan.Graph.Basic
import FlowPlan.Json.Decode
import FlowPlan.Json.Reader
import FlowPlan.Json.Writer

/-!
Processors: what runs an operator, and the shape of the work it does.

An operator names its kind of work, and the processor of that name runs it.  The standard kinds are
built in; others are registered by name or read from a JSON array.
-/

namespace FlowPlan

/-- The shape of the work a processor performs on its records. -/
inductive ProcessorKind
  /-- One record at a time, and its successor may run in the same chain. -/
  | linePart
  /-- One record at a time, and a chain ends with it. -/
  | lineEnd
  /-- Groups of shuffled records. -/
  | rendezvous
deriving DecidableEq, Repr

namespace ProcessorKind

/-- The name in reports. -/
def label : ProcessorKind → String
  | linePart => "line-part"
  | lineEnd => "line-end"
  | rendezvous => "rendezvous"

/-- The name in registries. -/
def name : ProcessorKind → String
  | linePart => "line_part"
  | lineEnd => "line_end"
  | rendezvous => "rendezvous"

def ofName? (s : String) : Option ProcessorKind :=
  [linePart, lineEnd, rendezvous].find? (·.name = s)

end ProcessorKind

/-- A processor is named for the kind of operator that it runs. -/
structure Processor where
  name : String
  kind : ProcessorKind
deriving DecidableEq, Repr

instance : Named Processor := ⟨Processor.name⟩

namespace Processor

/-- The processor of elements that only pass their records on. -/
def empty : Processor := { name := "", kind := .linePart }

def isEmpty (p : Processor) : Bool := p.name.isEmpty

/-- A processor after which a chain of operators has to stop. -/
def endsChain (p : Processor) : Bool := !p.isEmpty && p.kind != .linePart

def toJson (p : Processor) : Json :=
  .record [("name", .ofString p.name), ("kind", .ofString p.kind.name)]

def ofJson? (v : Json) : Option Processor := do
  match ← v.fields? .ignored ["name", "kind"] with
  | [name, kind] =>
    return { name := ← Json.required? Json.text? name,
             kind := ← Json.required? (Json.choice? ProcessorKind.ofName?) kind }
  | _ => none

end Processor

inductive RegistryError
  | duplicate (name : String)
  | malformed
deriving DecidableEq, Repr

namespace RegistryError

def message : RegistryError → String
  | duplicate name => s!"duplicate processor '{name}'"
  | malformed => "invalid processor manifest: not a list of processors"

end RegistryError

abbrev ProcessorRegistry := Catalog Processor

namespace ProcessorRegistry

/-- The processors of the standard kinds of operator. -/
def builtins : ProcessorRegistry :=
  let entries (kind : ProcessorKind) (names : List String) : List Processor :=
    names.map fun name => { name, kind }
  Catalog.ofList
    (entries .linePart
        ["update", "convert", "project", "restructure", "extend", "logging", "confluent"]
      ++ entries .lineEnd ["branch", "extract", "split"]
      ++ entries .rendezvous
        ["cogroup", "group_sort", "fold", "summarize", "master_join", "master_check",
          "master_branch", "master_join_update"])

/-- The processor that runs an element: the empty one for pseudo elements, and the one registered
for its kind for an operator. -/
def resolve? (r : ProcessorRegistry) (e : Element) : Option Processor :=
  match e.kind with
  | .pseudo => some .empty
  | .operator desc => r.find? desc.kind
  | _ => none

def register (r : ProcessorRegistry) (p : Processor) : Except RegistryError ProcessorRegistry :=
  match r.insert? p with
  | some r => .ok r
  | none => .error (.duplicate p.name)

/-- Register several processors one by one.  The first name that is taken stops the run, and those
before it stay. -/
def registerAll (r : ProcessorRegistry) :
    List Processor → ProcessorRegistry × Except RegistryError Unit
  | [] => (r, .ok ())
  | p :: ps =>
    match register r p with
    | .ok r => registerAll r ps
    | .error e => (r, .error e)

/-- The processors that a JSON array lists. -/
def decode? (source : String) : Option (List Processor) := do
  (← Json.parse? source).list? Processor.ofJson?

/-- Register the processors of a JSON array and count them. -/
def load (r : ProcessorRegistry) (source : String) :
    ProcessorRegistry × Except RegistryError Nat :=
  match decode? source with
  | none => (r, .error .malformed)
  | some ps =>
    let (r, result) := registerAll r ps
    (r, result.map fun _ => ps.length)

/-- The text that stands for a registry in fingerprints: the same for equal registries, whatever
order their entries were declared in. -/
def canonicalJson (r : ProcessorRegistry) : String :=
  (Json.array (r.entries.map Processor.toJson)).toText

end ProcessorRegistry
end FlowPlan
