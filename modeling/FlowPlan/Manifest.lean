import FlowPlan.Draft
import FlowPlan.Manifest.Document

/-!
Manifests: everything that one compilation needs.

A document is turned into a manifest by registering its processors and data classes and by drafting
its flows, the inner ones before the flow that holds them.  The first mistake is reported, with the
path of part names that leads to its flow.
-/

namespace FlowPlan

inductive ManifestError
  | malformed
  | build (flow : String) (error : DraftError)
  | registry (error : RegistryError)
  | dataModel (error : DataModelError)
deriving DecidableEq, Repr

namespace ManifestError

def message : ManifestError → String
  | malformed => "invalid manifest: not a manifest document"
  | build flow error => s!"flow `{flow}`: {error.message}"
  | registry error => error.message
  | dataModel error => error.message

end ManifestError

structure Manifest where
  name : Option String
  options : CompilerOptions
  graph : FlowGraph
  /-- The built-in processors and those of the manifest. -/
  processors : ProcessorRegistry
  dataClasses : DataClassRegistry

namespace Manifest

/-- A port takes the type of its flow unless it has its own. -/
def declare (type : String) (p : PortDocument) : PortDecl :=
  { name := p.name, type := p.type.getD type, optional := p.optional, key := p.key }

mutual

/-- The graph of a flow.  A mistake in an inner flow is found before those of the flow itself. -/
def drawFlow (path : String) : FlowDocument → Except ManifestError FlowGraph
  | .mk type elements connections => do
    let type := type.getD Draft.defaultType
    let steps ← drawElements path type elements
    let wires := connections.map fun (u, d) => Draft.Step.connect u d
    match (((Draft.start type).applyAll steps).applyAll wires).finish with
    | .ok g => return g
    | .error e => throw (.build path e)

/-- The steps that add the elements of a flow. -/
def drawElements (path type : String) : List ElementDocument →
    Except ManifestError (List Draft.Step)
  | [] => return []
  | e :: es => do
    let step ← drawElement path type e
    return step :: (← drawElements path type es)

def drawElement (path type : String) : ElementDocument → Except ManifestError Draft.Step
  | .input name own => return .input name own
  | .output name own => return .output name own
  | .operator name kind inputs outputs boundary resources =>
    return .operator name { name, kind, resources } (inputs.map (declare type))
      (outputs.map (declare type)) boundary
  | .pseudo name own boundary => return .pseudo name own boundary
  | .flowPart name flow => do
    return .flowPart name (← drawFlow s!"{path}.{name}" flow)

end

/-- The name of a flow in messages, if the manifest has none. -/
def defaultName : String := "flow"

def ofDocument (d : ManifestDocument) : Except ManifestError Manifest := do
  let processors ←
    match ProcessorRegistry.registerAll .builtins d.processors with
    | (r, .ok ()) => pure r
    | (_, .error e) => throw (.registry e)
  let dataClasses ← (DataClassRegistry.ofClasses d.dataClasses).mapError .dataModel
  let graph ← drawFlow (d.name.getD defaultName) d.flow
  return { name := d.name, options := d.options.getD .default, graph, processors, dataClasses }

/-- The manifest that a JSON text describes. -/
def parse (source : String) : Except ManifestError Manifest :=
  match ManifestDocument.parse? source with
  | none => .error .malformed
  | some d => ofDocument d

end Manifest
end FlowPlan
