import FlowPlan.NormalForm.Flat
import Mathlib.Data.List.Nodup

/-!
Well-formed flow graphs.

A graph that is built by the operations gives every number once, keeps its numbers below the next
free ones, and connects output ports to input ports that are there.  Its elements have the ports
that belong to their kind: an input has one output port, an output one input port, a pseudo element
one of each, and a flow part those that its flow exposes.

`Coherent` says so of one level and `WellFormed` of all levels.  Everything that reads a graph looks
elements and ports up by number, and the lookups are exact only where this holds.
-/

namespace FlowPlan

namespace Element

def inputIds (e : Element) : List PortId := e.inputs.map (·.id)

def outputIds (e : Element) : List PortId := e.outputs.map (·.id)

def portIds (e : Element) : List PortId := e.ports.map (·.id)

theorem portIds_eq (e : Element) : e.portIds = e.inputIds ++ e.outputIds := List.map_append

theorem mem_portIds {e : Element} {p : PortId} :
    p ∈ e.portIds ↔ p ∈ e.inputIds ∨ p ∈ e.outputIds := by
  rw [portIds_eq, List.mem_append]

theorem mem_portIds_of_single {e : Element} {a b p : PortId} (hin : e.inputIds = [a])
    (hout : e.outputIds = [b]) : p ∈ e.portIds ↔ p = a ∨ p = b := by
  rw [mem_portIds, hin, hout, List.mem_singleton, List.mem_singleton]

theorem owns_iff {e : Element} {p : PortId} : e.owns p = true ↔ p ∈ e.portIds := by
  simp [owns, portIds]

end Element

/-! ## Shapes -/

/-- The ports and the boundary that an element of a kind may have. -/
def HasShape (kind : ElementKind) (boundary : Boundary) (inputs outputs : List PortDecl) : Prop :=
  match kind with
  | .input => boundary = .none ∧ inputs = [] ∧ outputs.length = 1
  | .output => boundary = .none ∧ inputs.length = 1 ∧ outputs = []
  | .operator _ => True
  | .pseudo => inputs.length = 1 ∧ outputs.length = 1
  | .flowPart inner =>
    boundary = .none ∧ inputs = inner.exposedInputs ∧ outputs = inner.exposedOutputs

def Element.Shaped (e : Element) : Prop :=
  HasShape e.kind e.boundary (FlowGraph.decls e.inputs) (FlowGraph.decls e.outputs)

namespace ElementDecl

def Shaped (d : ElementDecl) : Prop := HasShape d.kind d.boundary d.inputs d.outputs

theorem input_shaped (name type : String) : (input name type).Shaped := ⟨rfl, rfl, rfl⟩

theorem output_shaped (name type : String) : (output name type).Shaped := ⟨rfl, rfl, rfl⟩

theorem operator_shaped (name : String) (desc : OperatorDesc) (inputs outputs : List PortDecl)
    (boundary : Boundary) : (operator name desc inputs outputs boundary).Shaped := trivial

theorem pseudo_shaped (name type : String) (boundary : Boundary) :
    (pseudo name type boundary).Shaped := ⟨rfl, rfl⟩

theorem flowPart_shaped (name : String) (inner : FlowGraph) : (flowPart name inner).Shaped :=
  ⟨rfl, rfl, rfl⟩

end ElementDecl

namespace Element

theorem isPseudo_iff {e : Element} : e.isPseudo = true ↔ e.kind = .pseudo := by
  unfold isPseudo
  cases e.kind <;> simp [ElementKind.isPseudo]

/-- A pseudo element has one way in and one way out. -/
theorem ports_of_isPseudo {e : Element} (h : e.Shaped) (hp : e.isPseudo = true) :
    ∃ a b, e.inputIds = [a] ∧ e.outputIds = [b] := by
  rw [Shaped, isPseudo_iff.1 hp] at h
  obtain ⟨hin, hout⟩ := h
  rw [FlowGraph.decls, List.length_map] at hin hout
  obtain ⟨a, ha⟩ := List.length_eq_one_iff.1 hin
  obtain ⟨b, hb⟩ := List.length_eq_one_iff.1 hout
  exact ⟨a.id, b.id, by rw [inputIds, ha]; rfl, by rw [outputIds, hb]; rfl⟩

end Element

namespace FlowGraph

/-! ## The invariant -/

/-- What the operations on graphs rely on and keep, on one level. -/
structure Coherent (g : FlowGraph) : Prop where
  /-- Elements are listed in the order of their numbers, each once. -/
  ascending : g.elements.Pairwise (·.id < ·.id)
  idsBelow : ∀ e ∈ g.elements, e.id < g.ids.nextElement
  /-- Every port is listed once, by one element. -/
  portsOnce : (g.elements.flatMap (·.portIds)).Nodup
  portsBelow : ∀ e ∈ g.elements, ∀ p ∈ e.portIds, p < g.ids.nextPort
  joined : ∀ c ∈ g.connections, g.isOutputPort c.source = true ∧ g.isInputPort c.target = true
  connectedOnce : g.connections.Nodup
  shaped : ∀ e ∈ g.elements, e.Shaped

/-- Coherent on all levels. -/
inductive WellFormed : FlowGraph → Prop
  | intro {g : FlowGraph} (coherent : g.Coherent)
      (inner : ∀ e ∈ g.elements, ∀ inner, e.kind = .flowPart inner → WellFormed inner) :
      WellFormed g

theorem WellFormed.coherent {g : FlowGraph} : g.WellFormed → g.Coherent
  | .intro h _ => h

theorem WellFormed.inner {g inner : FlowGraph} {e : Element} (h : g.WellFormed)
    (he : e ∈ g.elements) (hk : e.kind = .flowPart inner) : inner.WellFormed := by
  cases h with
  | intro _ hi => exact hi e he inner hk

theorem empty_coherent : empty.Coherent :=
  ⟨.nil, by simp [empty], by simp [empty], by simp [empty], by simp [empty], .nil,
    by simp [empty]⟩

theorem empty_wellFormed : empty.WellFormed := .intro empty_coherent (by simp [empty])

end FlowGraph

/-! ## Declarations -/

namespace ElementDecl

/-- Declared as its kind demands, with a well-formed flow inside if it is a part. -/
def IsSound (d : ElementDecl) : Prop :=
  d.Shaped ∧ ∀ inner, d.kind = .flowPart inner → inner.WellFormed

@[simp] theorem input_isSound (name type : String) : (input name type).IsSound :=
  ⟨input_shaped name type, by simp [input]⟩

@[simp] theorem output_isSound (name type : String) : (output name type).IsSound :=
  ⟨output_shaped name type, by simp [output]⟩

@[simp] theorem operator_isSound (name : String) (desc : OperatorDesc)
    (inputs outputs : List PortDecl) (boundary : Boundary) :
    (operator name desc inputs outputs boundary).IsSound := ⟨trivial, by simp [operator]⟩

@[simp] theorem pseudo_isSound (name type : String) (boundary : Boundary) :
    (pseudo name type boundary).IsSound :=
  ⟨pseudo_shaped name type boundary, by simp [pseudo]⟩

@[simp] theorem flowPart_isSound (name : String) (inner : FlowGraph) :
    (flowPart name inner).IsSound ↔ inner.WellFormed := by
  constructor
  · exact fun h => h.2 inner rfl
  · intro h
    refine ⟨flowPart_shaped name inner, fun inner' hk => ?_⟩
    cases hk
    exact h

end ElementDecl

namespace FlowGraph

/-! ## Ports and their sides -/

theorem isInputPort_iff {g : FlowGraph} {p : PortId} :
    g.isInputPort p = true ↔ ∃ e ∈ g.elements, p ∈ e.inputIds := by
  simp [isInputPort, Element.inputIds]

theorem isOutputPort_iff {g : FlowGraph} {p : PortId} :
    g.isOutputPort p = true ↔ ∃ e ∈ g.elements, p ∈ e.outputIds := by
  simp [isOutputPort, Element.outputIds]

section Lookup

variable {g : FlowGraph}

namespace Coherent

theorem eq_of_id_eq (h : g.Coherent) {e e' : Element} (he : e ∈ g.elements)
    (he' : e' ∈ g.elements) (hid : e.id = e'.id) : e = e' := by
  obtain ⟨i, hi, rfl⟩ := List.getElem_of_mem he
  obtain ⟨j, hj, rfl⟩ := List.getElem_of_mem he'
  have hlt := List.pairwise_iff_getElem.1 h.ascending
  rcases Nat.lt_trichotomy i j with hij | rfl | hij
  · exact absurd hid (Nat.ne_of_lt (hlt i j hi hj hij))
  · rfl
  · exact absurd hid (Nat.ne_of_gt (hlt j i hj hi hij))

/-- A port has one owner. -/
theorem eq_of_port (h : g.Coherent) {e e' : Element} {p : PortId} (he : e ∈ g.elements)
    (he' : e' ∈ g.elements) (hp : p ∈ e.portIds) (hp' : p ∈ e'.portIds) : e = e' := by
  obtain ⟨i, hi, rfl⟩ := List.getElem_of_mem he
  obtain ⟨j, hj, rfl⟩ := List.getElem_of_mem he'
  have hdisj := List.pairwise_iff_getElem.1 (List.nodup_flatMap.1 h.portsOnce).2
  rcases Nat.lt_trichotomy i j with hij | rfl | hij
  · exact absurd hp' (hdisj i j hi hj hij hp)
  · rfl
  · exact absurd hp (hdisj j i hj hi hij hp')

theorem eq_of_input (h : g.Coherent) {e e' : Element} {p : PortId} (he : e ∈ g.elements)
    (he' : e' ∈ g.elements) (hp : p ∈ e.inputIds) (hp' : p ∈ e'.inputIds) : e = e' :=
  h.eq_of_port he he' (Element.mem_portIds.2 (.inl hp)) (Element.mem_portIds.2 (.inl hp'))

theorem eq_of_output (h : g.Coherent) {e e' : Element} {p : PortId} (he : e ∈ g.elements)
    (he' : e' ∈ g.elements) (hp : p ∈ e.outputIds) (hp' : p ∈ e'.outputIds) : e = e' :=
  h.eq_of_port he he' (Element.mem_portIds.2 (.inr hp)) (Element.mem_portIds.2 (.inr hp'))

theorem elementIds_nodup (h : g.Coherent) : g.elementIds.Nodup :=
  List.pairwise_map.2 (h.ascending.imp Nat.ne_of_lt)

theorem elements_nodup (h : g.Coherent) : g.elements.Nodup := h.elementIds_nodup.of_map _

theorem portIds_nodup (h : g.Coherent) {e : Element} (he : e ∈ g.elements) : e.portIds.Nodup :=
  (List.nodup_flatMap.1 h.portsOnce).1 e he

/-- No port is on both sides. -/
theorem not_mem_outputIds (h : g.Coherent) {e e' : Element} {p : PortId} (he : e ∈ g.elements)
    (he' : e' ∈ g.elements) (hp : p ∈ e.inputIds) : p ∉ e'.outputIds := by
  intro hp'
  obtain rfl := h.eq_of_port he he' (Element.mem_portIds.2 (.inl hp))
    (Element.mem_portIds.2 (.inr hp'))
  have hn := h.portIds_nodup he
  rw [Element.portIds_eq] at hn
  exact (List.nodup_append.1 hn).2.2 p hp p hp' rfl

theorem element?_eq_some (h : g.Coherent) {e : Element} (he : e ∈ g.elements) :
    g.element? e.id = some e := by
  obtain ⟨e', he'⟩ := Option.isSome_iff_exists.1
    (List.find?_isSome.2 ⟨e, he, beq_self_eq_true e.id⟩ : (g.element? e.id).isSome = true)
  have hmem := List.mem_of_find?_eq_some he'
  have hid : e'.id = e.id := by simpa using List.find?_some he'
  exact he'.trans (congrArg some (h.eq_of_id_eq hmem he hid))

theorem owner?_eq_some (h : g.Coherent) {e : Element} {p : PortId} (he : e ∈ g.elements)
    (hp : p ∈ e.portIds) : g.owner? p = some e := by
  obtain ⟨e', he'⟩ := Option.isSome_iff_exists.1
    (List.find?_isSome.2 ⟨e, he, Element.owns_iff.2 hp⟩ : (g.owner? p).isSome = true)
  have hmem := List.mem_of_find?_eq_some he'
  have howns : p ∈ e'.portIds := Element.owns_iff.1 (by simpa using List.find?_some he')
  exact he'.trans (congrArg some (h.eq_of_port hmem he howns hp))

theorem port?_of_mem (h : g.Coherent) {e : Element} {q : Port} (he : e ∈ g.elements)
    (hq : q ∈ e.ports) : g.port? q.id = some q := by
  have hown := h.owner?_eq_some he (List.mem_map_of_mem hq : q.id ∈ e.portIds)
  obtain ⟨q', hq'⟩ := Option.isSome_iff_exists.1
    (List.find?_isSome.2 ⟨q, hq, beq_self_eq_true q.id⟩ :
      (e.ports.find? (·.id == q.id)).isSome = true)
  have hid : q'.id = q.id := by simpa using List.find?_some hq'
  have heq := List.inj_on_of_nodup_map (h.portIds_nodup he) (List.mem_of_find?_eq_some hq') hq hid
  rw [port?, hown, Option.bind_some, hq', heq]

end Coherent

theorem mem_of_element?_eq_some {e : Element} {i : ElementId} (h : g.element? i = some e) :
    e ∈ g.elements ∧ e.id = i :=
  ⟨List.mem_of_find?_eq_some h, by simpa using List.find?_some h⟩

theorem mem_of_owner?_eq_some {e : Element} {p : PortId} (h : g.owner? p = some e) :
    e ∈ g.elements ∧ p ∈ e.portIds :=
  have howns : e.owns p = true := by
    simpa using List.find?_some (show g.elements.find? _ = _ from h)
  ⟨List.mem_of_find?_eq_some h, Element.owns_iff.1 howns⟩

end Lookup

end FlowGraph
end FlowPlan
