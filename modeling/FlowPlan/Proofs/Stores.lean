import FlowPlan.NormalForm.Store
import FlowPlan.Proofs.LocalChanges

/-!
Stored graphs against the graphs whose elements hold their ports.

`FlowGraph.stored` lays a graph out in two tables.  Every operation on the tables does to the layout
of a graph what the operation on graphs does to the graph, so what is known of graphs carries over
to tables: a change of the layout is the layout of the changed graph.

Reading an owner or a type needs nothing of the graph.  Which side a port is on is told by the first
element that lists it, and the next numbers are free, only if the graph is coherent.
-/

namespace FlowPlan

/-! ## The layout of a graph -/

def StoredPort.of (owner : ElementId) (direction : Direction) (p : Port) : StoredPort :=
  { p with owner, direction }

def Element.storedPorts (e : Element) : List StoredPort :=
  e.inputs.map (.of e.id .input) ++ e.outputs.map (.of e.id .output)

mutual

def ElementKind.stored : ElementKind → StoredKind
  | .input => .input
  | .output => .output
  | .operator desc => .operator desc
  | .pseudo => .pseudo
  | .flowPart inner => .flowPart (FlowGraph.stored inner)

def Element.stored : Element → StoredElement
  | ⟨id, name, kind, boundary, inputs, outputs⟩ =>
    { id, name, kind := kind.stored, boundary, inputs := inputs.map (·.id),
      outputs := outputs.map (·.id) }

def storedElements : List Element → List StoredElement
  | [] => []
  | e :: es => e.stored :: storedElements es

def FlowGraph.stored : FlowGraph → FlowStore
  | ⟨ids, elements, connections⟩ =>
    { ids, elements := storedElements elements, ports := elements.flatMap (·.storedPorts),
      connections }

end

theorem storedElements_eq (es : List Element) : storedElements es = es.map (·.stored) := by
  induction es with
  | nil => rw [storedElements, List.map_nil]
  | cons e es ih => rw [storedElements, ih, List.map_cons]

namespace Element

variable (e : Element)

@[simp] theorem id_stored : e.stored.id = e.id := by cases e; rw [stored]

@[simp] theorem name_stored : e.stored.name = e.name := by cases e; rw [stored]

@[simp] theorem kind_stored : e.stored.kind = e.kind.stored := by cases e; rw [stored]

@[simp] theorem boundary_stored : e.stored.boundary = e.boundary := by cases e; rw [stored]

@[simp] theorem inputs_stored : e.stored.inputs = e.inputIds := by cases e; rw [stored]; rfl

@[simp] theorem outputs_stored : e.stored.outputs = e.outputIds := by cases e; rw [stored]; rfl

@[simp] theorem portIds_stored : e.stored.portIds = e.portIds := by
  rw [StoredElement.portIds, inputs_stored, outputs_stored, portIds_eq]

end Element

/-! ### Classification -/

namespace ElementKind

variable (kind : ElementKind)

theorem isInput_plain : kind.stored.plain.isInput = kind.isInput := by
  cases kind <;> (rw [stored]; rfl)

theorem isOutput_plain : kind.stored.plain.isOutput = kind.isOutput := by
  cases kind <;> (rw [stored]; rfl)

theorem isPseudo_plain : kind.stored.plain.isPseudo = kind.isPseudo := by
  cases kind <;> (rw [stored]; rfl)

theorem operator?_plain : kind.stored.plain.operator? = kind.operator? := by
  cases kind <;> (rw [stored]; rfl)

end ElementKind

/-- The condition is one on the kind and the boundary. -/
def OnPlain (q : Element → Bool) : Prop := ∀ e : Element, q e.stored.plain = q e

namespace OnPlain

theorem boundary_plain (e : Element) : e.stored.plain.boundary = e.boundary := by
  rw [StoredElement.plain, Element.boundary_stored]

theorem kind_plain (e : Element) : e.stored.plain.kind = e.kind.stored.plain := by
  rw [StoredElement.plain, Element.kind_stored]

theorem isInput : OnPlain (·.isInput) := by
  intro e
  simp only [Element.isInput, kind_plain, ElementKind.isInput_plain]

theorem isOutput : OnPlain (·.isOutput) := by
  intro e
  simp only [Element.isOutput, kind_plain, ElementKind.isOutput_plain]

theorem isCheckpoint : OnPlain (·.isCheckpoint) := by
  intro e
  simp only [Element.isCheckpoint, Element.isPseudo, kind_plain, boundary_plain,
    ElementKind.isPseudo_plain]

theorem isIdentity : OnPlain (·.isIdentity) := by
  intro e
  simp only [Element.isIdentity, Element.isPseudo, kind_plain, boundary_plain,
    ElementKind.isPseudo_plain]

theorem isStageBoundary : OnPlain (·.isStageBoundary) := by
  intro e
  simp only [Element.isStageBoundary, isInput e, isOutput e, isCheckpoint e]

theorem isShuffleBoundary : OnPlain (·.isShuffleBoundary) := by
  intro e
  simp only [Element.isShuffleBoundary, boundary_plain]

theorem isBoundary : OnPlain (·.isBoundary) := by
  intro e
  simp only [Element.isBoundary, isStageBoundary e, isShuffleBoundary e]

theorem isStageHead : OnPlain (·.isStageHead) := by
  intro e
  simp only [Element.isStageHead, Element.operator?, kind_plain, boundary_plain,
    ElementKind.operator?_plain]

theorem kindLabel (e : Element) : e.stored.plain.kindLabel = e.kindLabel := by
  rw [Element.kindLabel, Element.kindLabel, boundary_plain, kind_plain]
  cases e.kind <;> rw [ElementKind.stored, StoredKind.plain]

end OnPlain

namespace FlowGraph

variable {g : FlowGraph} {e : Element} {p : PortId}

/-! ### The tables -/

@[simp] theorem ids_stored (g : FlowGraph) : g.stored.ids = g.ids := by cases g; rw [stored]

@[simp] theorem elements_stored (g : FlowGraph) :
    g.stored.elements = g.elements.map (·.stored) := by
  cases g
  rw [stored, storedElements_eq]

@[simp] theorem ports_stored (g : FlowGraph) :
    g.stored.ports = g.elements.flatMap (·.storedPorts) := by
  cases g
  rw [stored]

@[simp] theorem connections_stored (g : FlowGraph) : g.stored.connections = g.connections := by
  cases g
  rw [stored]

/-- A store with the tables of a graph is the layout of the graph. -/
theorem eq_stored {s : FlowStore} (hids : s.ids = g.ids)
    (helements : s.elements = g.elements.map (·.stored))
    (hports : s.ports = g.elements.flatMap (·.storedPorts))
    (hconnections : s.connections = g.connections) : s = g.stored := by
  cases s
  cases g
  rw [stored, storedElements_eq]
  simp only at hids helements hports hconnections
  rw [hids, helements, hports, hconnections]

/-! ## Reading -/

theorem element?_stored (g : FlowGraph) (i : ElementId) :
    g.stored.element? i = (g.element? i).map (·.stored) := by
  rw [FlowStore.element?, elements_stored, List.find?_map]
  congr 2
  funext e
  exact congrArg (· == i) e.id_stored

theorem contains_stored (g : FlowGraph) (i : ElementId) : g.stored.contains i = g.contains i := by
  rw [FlowStore.contains, element?_stored, Option.isSome_map, element?, List.isSome_find?,
    contains]

theorem elementIds_stored (g : FlowGraph) : g.stored.elementIds = g.elementIds := by
  rw [FlowStore.elementIds, elements_stored, List.map_map]
  exact List.map_congr_left fun e _ => e.id_stored

theorem satisfies_stored {q : Element → Bool} (hq : OnPlain q) (i : ElementId) :
    g.stored.satisfies q i = (g.element? i).any q := by
  rw [FlowStore.satisfies, element?_stored]
  cases g.element? i with
  | none => rfl
  | some e => exact hq e

theorem idsWhere_stored {q : Element → Bool} (hq : OnPlain q) :
    g.stored.idsWhere q = g.idsWhere q := by
  rw [FlowStore.idsWhere, idsWhere, elements_stored, List.filter_map, List.map_map]
  rw [List.map_congr_left fun e _ => e.id_stored]
  congr 2
  exact funext hq

/-! ### Ports -/

theorem mem_storedPorts {q : StoredPort} :
    q ∈ e.storedPorts ↔ (∃ p ∈ e.inputs, .of e.id .input p = q) ∨
      ∃ p ∈ e.outputs, .of e.id .output p = q := by
  rw [Element.storedPorts, List.mem_append, List.mem_map, List.mem_map]

theorem map_id_storedPorts (e : Element) : e.storedPorts.map (·.id) = e.portIds := by
  rw [Element.storedPorts, List.map_append, List.map_map, List.map_map, Element.portIds_eq]
  rfl

theorem map_toPort_storedPorts (e : Element) : e.storedPorts.map (·.toPort) = e.ports := by
  rw [Element.storedPorts, List.map_append, List.map_map, List.map_map, Element.ports]
  exact congrArg₂ (· ++ ·) (List.map_id' _) (List.map_id' _)

theorem owner_of_mem_storedPorts {q : StoredPort} (hq : q ∈ e.storedPorts) : q.owner = e.id := by
  rcases mem_storedPorts.1 hq with ⟨p, -, rfl⟩ | ⟨p, -, rfl⟩ <;> rfl

theorem mem_portsOn_stored {d : Direction} :
    p ∈ e.stored.portsOn d ↔ ∃ q ∈ e.storedPorts, q.id = p ∧ q.direction = d := by
  cases d <;>
    simp [StoredElement.portsOn, Element.inputIds, Element.outputIds, Element.storedPorts,
      StoredPort.of, or_and_right, exists_or]

theorem mem_ports_stored {q : StoredPort} :
    q ∈ g.stored.ports ↔ ∃ e ∈ g.elements, q ∈ e.storedPorts := by
  rw [ports_stored, List.mem_flatMap]

theorem map_id_ports_stored (g : FlowGraph) :
    g.stored.ports.map (·.id) = g.elements.flatMap (·.portIds) := by
  rw [ports_stored, List.map_flatMap]
  simp only [map_id_storedPorts]

theorem port?_stored_of_owner?_eq_none (h : g.owner? p = none) : g.stored.port? p = none := by
  refine List.find?_eq_none.2 fun q hq => ?_
  obtain ⟨e, he, hqe⟩ := mem_ports_stored.1 hq
  have hid : q.id ∈ e.portIds := by
    rw [← map_id_storedPorts]
    exact List.mem_map_of_mem hqe
  have hown := List.find?_eq_none.1 h e he
  rw [Element.owns_iff] at hown
  intro heq
  exact hown (beq_iff_eq.1 heq ▸ hid)

section Ports

variable (h : g.Coherent)
include h

/-- The table finds every port by its number. -/
theorem Coherent.port?_stored {q : StoredPort} (he : e ∈ g.elements) (hq : q ∈ e.storedPorts) :
    g.stored.port? q.id = some q := by
  have hmem : q ∈ g.stored.ports := mem_ports_stored.2 ⟨e, he, hq⟩
  obtain ⟨q', hq'⟩ := Option.isSome_iff_exists.1
    (List.find?_isSome.2 ⟨q, hmem, beq_self_eq_true q.id⟩ : (g.stored.port? q.id).isSome = true)
  have hid : q'.id = q.id := by simpa using List.find?_some hq'
  have honce : (g.stored.ports.map (·.id)).Nodup := map_id_ports_stored g ▸ h.portsOnce
  have heq := List.inj_on_of_nodup_map honce (List.mem_of_find?_eq_some hq') hmem hid
  exact hq'.trans (congrArg some heq)

theorem Coherent.exists_port?_stored (he : e ∈ g.elements) (hp : p ∈ e.portIds) :
    ∃ q ∈ e.storedPorts, q.id = p ∧ g.stored.port? p = some q := by
  rw [← map_id_storedPorts] at hp
  obtain ⟨q, hq, rfl⟩ := List.mem_map.1 hp
  exact ⟨q, hq, rfl, h.port?_stored he hq⟩

theorem owner?_stored (p : PortId) : g.stored.owner? p = g.ownerId? p := by
  cases ho : g.owner? p with
  | none => rw [FlowStore.owner?, port?_stored_of_owner?_eq_none ho, ownerId?, ho]; rfl
  | some e =>
    obtain ⟨he, hp⟩ := mem_of_owner?_eq_some ho
    obtain ⟨q, hq, -, hport⟩ := h.exists_port?_stored he hp
    rw [FlowStore.owner?, hport, ownerId?, ho, Option.map_some, Option.map_some,
      owner_of_mem_storedPorts hq]

theorem toPort?_stored (p : PortId) : (g.stored.port? p).map (·.toPort) = g.port? p := by
  cases ho : g.owner? p with
  | none => rw [port?_stored_of_owner?_eq_none ho, port?, ho]; rfl
  | some e =>
    obtain ⟨he, hp⟩ := mem_of_owner?_eq_some ho
    obtain ⟨q, hq, rfl, hport⟩ := h.exists_port?_stored he hp
    have hmem : q.toPort ∈ e.ports := map_toPort_storedPorts e ▸ List.mem_map_of_mem hq
    rw [hport, Option.map_some]
    exact (h.port?_of_mem he hmem).symm

/-- The stored side is the side on which the port is listed. -/
theorem any_direction_stored (d : Direction) (p : PortId) :
    (g.stored.port? p).any (·.direction == d) = true ↔
      ∃ e ∈ g.elements, p ∈ e.stored.portsOn d := by
  rw [Option.any_eq_true]
  constructor
  · intro hmem
    obtain ⟨q, hport, hd⟩ := hmem
    obtain ⟨e, he, hq⟩ := mem_ports_stored.1 (List.mem_of_find?_eq_some hport)
    have hid : q.id = p := by simpa using List.find?_some hport
    exact ⟨e, he, mem_portsOn_stored.2 ⟨q, hq, hid, beq_iff_eq.1 hd⟩⟩
  · intro hmem
    obtain ⟨e, he, hp⟩ := hmem
    obtain ⟨q, hq, rfl, rfl⟩ := mem_portsOn_stored.1 hp
    exact ⟨q, h.port?_stored he hq, beq_self_eq_true q.direction⟩

theorem isInputPort_stored (p : PortId) :
    (g.stored.port? p).any (·.direction == .input) = g.isInputPort p := by
  rw [Bool.eq_iff_iff, isInputPort_iff, any_direction_stored h]
  simp only [StoredElement.portsOn, Element.inputs_stored]

theorem isOutputPort_stored (p : PortId) :
    (g.stored.port? p).any (·.direction == .output) = g.isOutputPort p := by
  rw [Bool.eq_iff_iff, isOutputPort_iff, any_direction_stored h]
  simp only [StoredElement.portsOn, Element.outputs_stored]

end Ports

/-! ### Neighbours -/

theorem opposites_stored (g : FlowGraph) (p : PortId) : g.stored.opposites p = g.opposites p := by
  rw [FlowStore.opposites, connections_stored]
  rfl

theorem incoming_stored (g : FlowGraph) (i : ElementId) : g.stored.incoming i = g.incoming i := by
  rw [FlowStore.incoming, incoming, inputsOf, element?_stored, connections_stored]
  cases g.element? i with
  | none => rfl
  | some e =>
    simp only [Option.map_some, Option.getD_some, Element.inputs_stored, Element.inputIds,
      List.flatMap_map]

theorem outgoing_stored (g : FlowGraph) (i : ElementId) : g.stored.outgoing i = g.outgoing i := by
  rw [FlowStore.outgoing, outgoing, outputsOf, element?_stored, connections_stored]
  cases g.element? i with
  | none => rfl
  | some e =>
    simp only [Option.map_some, Option.getD_some, Element.outputs_stored, Element.outputIds,
      List.flatMap_map]

/-- Where each turn of a loop has a result that goes with the turn of another loop, the loops go
together. -/
theorem foldlM_of_foldl {α β γ : Type} (R : β → γ → Prop) (turn : β → α → β)
    (turn? : γ → α → Option γ) (as : List α)
    (hturn : ∀ a ∈ as, ∀ b c, R b c → ∃ c', turn? c a = some c' ∧ R (turn b a) c') {b : β} {c : γ}
    (hbc : R b c) : ∃ c', as.foldlM turn? c = some c' ∧ R (as.foldl turn b) c' := by
  induction as generalizing b c with
  | nil => exact ⟨c, rfl, hbc⟩
  | cons a as ih =>
    obtain ⟨c₁, hfirst, hR⟩ := hturn a List.mem_cons_self b c hbc
    obtain ⟨c', hrest, hR'⟩ := ih (fun x hx => hturn x (List.mem_cons_of_mem a hx)) hR
    refine ⟨c', ?_, hR'⟩
    rw [List.foldlM_cons, hfirst, Option.bind_eq_bind, Option.bind_some, hrest]

/-- Where nothing is missing, reading each is reading those that are there. -/
theorem mapM_eq_filterMap {α β : Type} {f : α → Option β} {as : List α}
    (h : ∀ a ∈ as, (f a).isSome = true) : as.mapM f = some (as.filterMap f) := by
  induction as with
  | nil => rfl
  | cons a as ih =>
    obtain ⟨b, hb⟩ := Option.isSome_iff_exists.1 (h a List.mem_cons_self)
    rw [List.mapM_cons, hb, ih fun x hx => h x (List.mem_cons_of_mem a hx),
      List.filterMap_cons_some hb]
    rfl

theorem mapM_eq_map {α β : Type} {f : α → Option β} {r : α → β} {as : List α}
    (h : ∀ a ∈ as, f a = some (r a)) : as.mapM f = some (as.map r) := by
  rw [mapM_eq_filterMap fun a ha => by rw [h a ha]; rfl]
  congr 1
  rw [← List.filterMap_eq_map]
  exact List.filterMap_congr h

theorem connected_of_mem_incoming {i : ElementId} {c : Connection} (hc : c ∈ g.incoming i) :
    c ∈ g.connections := by
  obtain ⟨q, -, hmem⟩ := List.mem_flatMap.1 hc
  exact List.mem_of_mem_filter hmem

theorem connected_of_mem_outgoing {i : ElementId} {c : Connection} (hc : c ∈ g.outgoing i) :
    c ∈ g.connections := by
  obtain ⟨q, -, hmem⟩ := List.mem_flatMap.1 hc
  exact List.mem_of_mem_filter hmem

section Neighbours

variable (h : g.Coherent)
include h

theorem ownerId?_source_isSome {c : Connection} (hc : c ∈ g.connections) :
    (g.ownerId? c.source).isSome = true := by
  obtain ⟨e, he, hp⟩ := h.source_mem hc
  rw [h.ownerId?_of_output he hp]
  rfl

theorem ownerId?_target_isSome {c : Connection} (hc : c ∈ g.connections) :
    (g.ownerId? c.target).isSome = true := by
  obtain ⟨e, he, hp⟩ := h.target_mem hc
  rw [h.ownerId?_of_input he hp]
  rfl

theorem owners_opposites_stored (p : PortId) :
    (g.opposites p).mapM g.stored.owner? = some (g.oppositeOwners p) := by
  rw [show g.stored.owner? = g.ownerId? from funext (owner?_stored h)]
  refine mapM_eq_filterMap fun d hd => ?_
  obtain ⟨c, hc, hopp⟩ := List.mem_filterMap.1 hd
  split at hopp
  · exact Option.some.inj hopp ▸ ownerId?_target_isSome h hc
  · split at hopp
    · exact Option.some.inj hopp ▸ ownerId?_source_isSome h hc
    · cases hopp

theorem successors?_stored (i : ElementId) : g.stored.successors? i = some (g.successors i) := by
  rw [FlowStore.successors?, outgoing_stored]
  simp only [owner?_stored h]
  rw [mapM_eq_filterMap fun c hc => ownerId?_target_isSome h (connected_of_mem_outgoing hc)]
  rfl

theorem predecessors?_stored (i : ElementId) :
    g.stored.predecessors? i = some (g.predecessors i) := by
  rw [FlowStore.predecessors?, incoming_stored]
  simp only [owner?_stored h]
  rw [mapM_eq_filterMap fun c hc => ownerId?_source_isSome h (connected_of_mem_incoming hc)]
  rfl

end Neighbours

/-! ### Types and declarations -/

section Types

variable (h : g.Coherent)
include h

/-- A port of an element is in the table with all that it carries. -/
theorem exists_stored_of_mem {q : Port} (he : e ∈ g.elements) (hq : q ∈ e.ports) :
    ∃ r, g.stored.port? q.id = some r ∧ r.toPort = q := by
  rw [← map_toPort_storedPorts] at hq
  obtain ⟨r, hr, rfl⟩ := List.mem_map.1 hq
  exact ⟨r, h.port?_stored he hr, rfl⟩

theorem firstType_stored {ports : List Port} (he : e ∈ g.elements)
    (hports : ∀ q ∈ ports, q ∈ e.ports) :
    g.stored.firstType (ports.map (·.id)) = firstType ports := by
  cases ports with
  | nil => rfl
  | cons q ports =>
    obtain ⟨r, hr, rfl⟩ := exists_stored_of_mem h he (hports q List.mem_cons_self)
    rw [FlowStore.firstType, List.map_cons, List.head?_cons, Option.bind_some, hr]
    rfl

theorem decls_stored {ports : List Port} (he : e ∈ g.elements)
    (hports : ∀ q ∈ ports, q ∈ e.ports) :
    (ports.map (·.id)).mapM g.stored.decl? = some (decls ports) := by
  rw [List.mapM_map]
  refine mapM_eq_map fun q hq => ?_
  obtain ⟨r, hr, rfl⟩ := exists_stored_of_mem h he (hports q hq)
  show (g.stored.port? r.id).map (·.toPortDecl) = some r.toPortDecl
  rw [hr, Option.map_some]

theorem firstType?_stored {ports : List Port} (he : e ∈ g.elements)
    (hports : ∀ q ∈ ports, q ∈ e.ports) :
    g.stored.firstType? (ports.map (·.id)) = some (firstType ports) := by
  cases ports with
  | nil => rfl
  | cons q ports =>
    obtain ⟨r, hr, rfl⟩ := exists_stored_of_mem h he (hports q List.mem_cons_self)
    show (g.stored.port? r.id).map (·.type) = _
    rw [hr]
    rfl

/-- What is read for a part that holds the layout is what the graph exposes. -/
theorem exposed?_stored {q : Element → Bool} (hq : OnPlain q)
    {ids : StoredElement → List PortId} {ports : Element → List Port}
    (hids : ∀ e : Element, ids e.stored = (ports e).map (·.id))
    (hports : ∀ e : Element, ∀ r ∈ ports e, r ∈ e.ports) :
    g.stored.exposed? q ids = some ((g.elements.filter q).map fun e =>
      .plain e.name (firstType (ports e))) := by
  rw [FlowStore.exposed?, elements_stored, List.filter_map, List.mapM_map,
    show (fun e => q e.plain) ∘ Element.stored = q from funext hq]
  refine mapM_eq_map fun e he => ?_
  show (g.stored.firstType? (ids e.stored)).map (PortDecl.plain e.stored.name) = _
  rw [hids, Element.name_stored, firstType?_stored h (List.mem_filter.1 he).1 (hports e),
    Option.map_some]

theorem exposedInputs?_stored : g.stored.exposedInputs? = some g.exposedInputs :=
  exposed?_stored h .isInput (fun e => e.outputs_stored) fun _ _ => List.mem_append_right _

theorem exposedOutputs?_stored : g.stored.exposedOutputs? = some g.exposedOutputs :=
  exposed?_stored h .isOutput (fun e => e.inputs_stored) fun _ _ => List.mem_append_left _

end Types

end FlowGraph
end FlowPlan
