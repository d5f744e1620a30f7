import FlowPlan.Proofs.Histories
import FlowPlan.Proofs.StoredPasses
import FlowPlan.Proofs.StoredUnfolding

/-!
Histories of stored graphs.

The calls of a history change the two tables and the list of connections, each by itself, and the
numbers that they are given may name anything.  `history_isIndexed` says what holds at every moment
all the same, on all levels: the tables agree about who owns a port and where, connections join what
is there, and a number that has been given to one thing is never given to another.  It rests on
`editAll?_stored`, by which a history of tables is the layout of the same history of graphs.
-/

namespace FlowPlan

namespace FlowStore

def rewriteBy? (s : FlowStore) : Rewrite → Option FlowStore
  | .flatten => s.flatten?.map (·.1)
  | .insertCheckpoints => s.insertCheckpoints?.map (·.1)
  | .insertIdentities => s.insertIdentities?.map (·.1)
  | .splitIdentities => s.splitIdentities?.map (·.1)
  | .reduceIdentities => s.reduceIdentities?.map (·.1)
  | .normalize => s.normalize?.map (·.1)

mutual

def edit? (s : FlowStore) : Edit → Option FlowStore
  | .input name type => some (s.addInput name type).2
  | .output name type => some (s.addOutput name type).2
  | .operator name desc inputs outputs boundary =>
    some (s.addOperator name desc inputs outputs boundary).2
  | .pseudo name type boundary => some (s.addPseudo name type boundary).2
  | .flowPart name edits =>
    (editAll? empty edits).bind fun inner => (s.addFlowPart? name inner).map (·.2)
  | .connect source target => some (s.connect source target)
  | .disconnect source target => some (s.disconnect source target)
  | .remove e => some (s.removeElement e)
  | .rename e name => some (s.rename e name)
  | .insertOn c boundary => s.insertPseudoOn? c boundary
  | .insertAfter p boundary => s.insertPseudoAfter? p boundary
  | .bypass e => some (s.bypass e)
  | .rewrite r => s.rewriteBy? r

/-- Make each edit in turn. -/
def editAll? (s : FlowStore) : List Edit → Option FlowStore
  | [] => some s
  | e :: es => (edit? s e).bind fun t => editAll? t es

end

/-! ## What the tables say -/

/-- The flow is the graph or that of a part in it, at some depth. -/
inductive Holds : FlowStore → FlowStore → Prop
  | itself (s : FlowStore) : Holds s s
  | inPart {s inner t : FlowStore} {e : StoredElement} (he : e ∈ s.elements)
      (hk : e.kind = .flowPart inner) (h : Holds inner t) : Holds s t

/-- The two tables agree, and connections join what is in them. -/
structure IsIndexed (s : FlowStore) : Prop where
  /-- Elements are entered in the order of their numbers, each once. -/
  elementsOnce : s.elements.Pairwise (·.id < ·.id)
  portsOnce : (s.ports.map (·.id)).Nodup
  /-- A port in the table is listed once by all elements together, namely by its owner, among the
  ports of its side. -/
  owned : ∀ p ∈ s.ports, (s.elements.flatMap (·.portIds)).count p.id = 1 ∧
    ∃ e ∈ s.elements, e.id = p.owner ∧ p.id ∈ e.portsOn p.direction
  /-- A port that is listed is in the table. -/
  listed : ∀ e ∈ s.elements, ∀ i ∈ e.portIds, ∃ p ∈ s.ports, p.id = i
  joined : ∀ c ∈ s.connections, (∃ p ∈ s.ports, p.id = c.source ∧ p.direction = .output) ∧
    ∃ p ∈ s.ports, p.id = c.target ∧ p.direction = .input
  connectedOnce : s.connections.Nodup
  elementsBelow : ∀ e ∈ s.elements, e.id < s.ids.nextElement
  portsBelow : ∀ p ∈ s.ports, p.id < s.ids.nextPort
  /-- A part has a port for each input and each output of its flow, in their order. -/
  mirrors : ∀ e ∈ s.elements, ∀ inner, e.kind = .flowPart inner →
    e.inputs.map (fun i => (s.port? i).map (·.name))
        = (inner.elements.filter (·.plain.isInput)).map (fun x => some x.name) ∧
      e.outputs.map (fun i => (s.port? i).map (·.name))
        = (inner.elements.filter (·.plain.isOutput)).map (fun x => some x.name)

/-- One store comes from the other by giving out further numbers: an element is one that was there,
perhaps under another name, or has new numbers, and so is a port. -/
structure Evolves (s t : FlowStore) : Prop where
  nextElement : s.ids.nextElement ≤ t.ids.nextElement
  nextPort : s.ids.nextPort ≤ t.ids.nextPort
  elements : ∀ y ∈ t.elements, (∃ x ∈ s.elements, y = { x with name := y.name }) ∨
    (s.ids.nextElement ≤ y.id ∧ ∀ p ∈ y.portIds, s.ids.nextPort ≤ p)
  ports : ∀ p ∈ t.ports, p ∈ s.ports ∨ s.ids.nextPort ≤ p.id

end FlowStore

namespace FlowGraph

variable {g k : FlowGraph}

/-! ## The layout of a history -/

section Squares

variable (h : g.Coherent)
include h

theorem addInput_stored (name type : String) :
    g.stored.addInput name type = (g.ids.nextElement, (g.add (.input name type)).stored) :=
  addElement_stored h (.input name type) (by rw [ElementDecl.input, ElementKind.stored])

theorem addOutput_stored (name type : String) :
    g.stored.addOutput name type = (g.ids.nextElement, (g.add (.output name type)).stored) :=
  addElement_stored h (.output name type) (by rw [ElementDecl.output, ElementKind.stored])

end Squares

theorem normalize?_stored (h : g.WellFormed) :
    g.stored.normalize? = some (g.normalize.1.stored, g.normalize.2) := by
  have hflat := (flatten_wellFormed h).coherent
  have hpoints := (insertCheckpoints_rewrites hflat).coherent hflat
  have hmaps := (insertIdentities_rewrites hpoints).coherent hpoints
  have hsplit := (splitIdentities_rewrites hmaps).coherent hmaps
  simp only [FlowStore.normalize?, flatten?_stored h, insertCheckpoints?_stored hflat,
    insertIdentities?_stored hpoints, splitIdentities?_stored hmaps,
    reduceIdentities?_stored hsplit, Option.bind_eq_bind, Option.bind_some, Option.pure_def,
    normalize]

theorem rewriteBy?_stored (h : g.WellFormed) (r : Rewrite) :
    g.stored.rewriteBy? r = some (g.rewriteBy r).stored := by
  cases r with
  | flatten => rw [FlowStore.rewriteBy?, flatten?_stored h]; rfl
  | insertCheckpoints => rw [FlowStore.rewriteBy?, insertCheckpoints?_stored h.coherent]; rfl
  | insertIdentities => rw [FlowStore.rewriteBy?, insertIdentities?_stored h.coherent]; rfl
  | splitIdentities => rw [FlowStore.rewriteBy?, splitIdentities?_stored h.coherent]; rfl
  | reduceIdentities => rw [FlowStore.rewriteBy?, reduceIdentities?_stored h.coherent]; rfl
  | normalize => rw [FlowStore.rewriteBy?, normalize?_stored h]; rfl

theorem empty_stored : empty.stored = FlowStore.empty := by
  rw [empty, stored, storedElements]
  rfl

mutual

theorem edit?_stored {g : FlowGraph} (h : g.WellFormed) :
    ∀ e : Edit, g.stored.edit? e = (g.edit? e).map (·.stored)
  | .input name type => by
    rw [FlowStore.edit?, addInput_stored h.coherent, edit?, Option.map_some]
  | .output name type => by
    rw [FlowStore.edit?, addOutput_stored h.coherent, edit?, Option.map_some]
  | .operator name desc inputs outputs boundary => by
    rw [FlowStore.edit?, addOperator_stored h.coherent, edit?, Option.map_some]
  | .pseudo name type boundary => by
    rw [FlowStore.edit?, addPseudo_stored h.coherent, edit?, Option.map_some]
  | .flowPart name edits => by
    have hedits := editAll?_stored empty_wellFormed edits
    rw [empty_stored] at hedits
    rw [FlowStore.edit?, hedits, edit?]
    cases hinner : empty.editAll? edits with
    | none => rfl
    | some inner =>
      have hwf := editAll?_wellFormed empty_wellFormed edits hinner
      simp only [Option.map_some, Option.bind_some,
        addFlowPart?_stored h.coherent hwf.coherent]
  | .connect source target => by
    rw [FlowStore.edit?, connect_stored h.coherent, edit?, Option.map_some]
  | .disconnect source target => by
    rw [FlowStore.edit?, disconnect_stored, edit?, Option.map_some]
  | .remove e => by
    rw [FlowStore.edit?, removeElement_stored h.coherent, edit?, Option.map_some]
  | .rename e name => by
    rw [FlowStore.edit?, rename_stored, edit?, Option.map_some]
  | .insertOn c boundary => by
    rw [FlowStore.edit?, insertPseudoOn?_stored h.coherent, edit?]
  | .insertAfter p boundary => by
    rw [FlowStore.edit?, insertPseudoAfter?_stored h.coherent, edit?]
  | .bypass e => by
    rw [FlowStore.edit?, bypass_stored h.coherent, edit?, Option.map_some]
  | .rewrite r => by
    rw [FlowStore.edit?, rewriteBy?_stored h, edit?, Option.map_some]

/-- A history of tables is the layout of the history of graphs. -/
theorem editAll?_stored {g : FlowGraph} (h : g.WellFormed) :
    ∀ es : List Edit, g.stored.editAll? es = (g.editAll? es).map (·.stored)
  | [] => by rw [FlowStore.editAll?, editAll?, Option.map_some]
  | e :: es => by
    rw [FlowStore.editAll?, edit?_stored h e, editAll?]
    cases hk : g.edit? e with
    | none => rfl
    | some k => exact editAll?_stored (edit?_wellFormed h e hk) es

end

/-! ## The layout of a well-formed graph -/

theorem exists_of_stored_eq_flowPart {kind : ElementKind} {inner : FlowStore}
    (hk : kind.stored = .flowPart inner) : ∃ k, kind = .flowPart k ∧ inner = k.stored := by
  cases kind with
  | flowPart k =>
    rw [ElementKind.stored] at hk
    exact ⟨k, rfl, (StoredKind.flowPart.inj hk).symm⟩
  | _ => rw [ElementKind.stored] at hk; cases hk

/-- The flows in the layout are the layouts of the flows in the graph. -/
theorem WellFormed.exists_of_holds {s flow : FlowStore} (hflow : s.Holds flow) {g : FlowGraph}
    (h : g.WellFormed) (hs : s = g.stored) : ∃ k : FlowGraph, k.WellFormed ∧ flow = k.stored := by
  induction hflow generalizing g with
  | itself => exact ⟨g, h, hs⟩
  | inPart he hk _ ih =>
    subst hs
    rw [elements_stored] at he
    obtain ⟨x, hx, rfl⟩ := List.mem_map.1 he
    rw [Element.kind_stored] at hk
    obtain ⟨k, hkind, rfl⟩ := exists_of_stored_eq_flowPart hk
    exact ih (h.inner hx hkind) rfl

namespace Coherent

variable (h : g.Coherent)
include h

theorem owned_stored {q : StoredPort} (hq : q ∈ g.stored.ports) :
    (g.stored.elements.flatMap (·.portIds)).count q.id = 1 ∧
      ∃ e ∈ g.stored.elements, e.id = q.owner ∧ q.id ∈ e.portsOn q.direction := by
  obtain ⟨e, he, hqe⟩ := mem_ports_stored.1 hq
  have hid : q.id ∈ e.portIds := map_id_storedPorts e ▸ List.mem_map_of_mem hqe
  have hlisted : g.stored.elements.flatMap (·.portIds) = g.elements.flatMap (·.portIds) := by
    rw [elements_stored, List.flatMap_map]
    simp only [Element.portIds_stored]
  refine ⟨?_, e.stored, ?_, ?_, mem_portsOn_stored.2 ⟨q, hqe, rfl, rfl⟩⟩
  · rw [hlisted]
    exact List.count_eq_one_of_mem h.portsOnce (List.mem_flatMap.2 ⟨e, he, hid⟩)
  · rw [elements_stored]
    exact List.mem_map_of_mem he
  · rw [Element.id_stored, owner_of_mem_storedPorts hqe]

omit h in
theorem exists_stored_of_direction {p : PortId} {d : Direction}
    (hp : (g.stored.port? p).any (·.direction == d) = true) :
    ∃ q ∈ g.stored.ports, q.id = p ∧ q.direction = d := by
  obtain ⟨q, hq, hd⟩ := (Option.any_eq_true _ _).1 hp
  exact ⟨q, List.mem_of_find?_eq_some hq, by simpa using List.find?_some hq, beq_iff_eq.1 hd⟩

omit h in
/-- The names that a part has to have are those of the inputs or outputs in the layout. -/
theorem names_ends_stored {q : Element → Bool} (hq : OnPlain q) (inner : FlowGraph) :
    (inner.stored.elements.filter fun x => q x.plain).map (fun x => some x.name)
      = ((inner.elements.filter q).map (·.name)).map some := by
  rw [elements_stored, List.filter_map, List.map_map, List.map_map,
    show (fun x => q x.plain) ∘ Element.stored = q from funext hq]
  exact List.map_congr_left fun x _ => congrArg some x.name_stored

theorem names_stored {e : Element} (he : e ∈ g.elements) {ports : List Port}
    (hports : ∀ q ∈ ports, q ∈ e.ports) :
    (ports.map (·.id)).map (fun i => (g.stored.port? i).map (·.name))
      = (ports.map (·.name)).map some := by
  rw [List.map_map, List.map_map]
  refine List.map_congr_left fun q hq => ?_
  obtain ⟨r, hr, rfl⟩ := exists_stored_of_mem h he (hports q hq)
  show (g.stored.port? r.id).map (·.name) = some r.name
  rw [hr, Option.map_some]

theorem isIndexed_stored : g.stored.IsIndexed where
  elementsOnce := by
    rw [elements_stored, List.pairwise_map]
    simpa only [Element.id_stored] using h.ascending
  portsOnce := map_id_ports_stored g ▸ h.portsOnce
  owned := fun q hq => h.owned_stored hq
  listed := by
    intro e he i hi
    rw [elements_stored] at he
    obtain ⟨x, hx, rfl⟩ := List.mem_map.1 he
    rw [Element.portIds_stored] at hi
    obtain ⟨q, hq, hid, -⟩ := h.exists_port?_stored hx hi
    exact ⟨q, mem_ports_stored.2 ⟨x, hx, hq⟩, hid⟩
  joined := by
    intro c hc
    rw [connections_stored] at hc
    obtain ⟨hsource, htarget⟩ := h.joined c hc
    rw [← isOutputPort_stored h] at hsource
    rw [← isInputPort_stored h] at htarget
    exact ⟨exists_stored_of_direction hsource, exists_stored_of_direction htarget⟩
  connectedOnce := (connections_stored g).symm ▸ h.connectedOnce
  elementsBelow := (ids_stored g).symm ▸ below_elements_stored h
  portsBelow := (ids_stored g).symm ▸ below_ports_stored h
  mirrors := by
    intro e he inner hk
    rw [elements_stored] at he
    obtain ⟨x, hx, rfl⟩ := List.mem_map.1 he
    rw [Element.kind_stored] at hk
    obtain ⟨k, hkind, rfl⟩ := exists_of_stored_eq_flowPart hk
    obtain ⟨hins, houts⟩ := h.names_of_flowPart hx hkind
    rw [exposedInputs, List.map_map] at hins
    rw [exposedOutputs, List.map_map] at houts
    have hinputs := h.names_stored hx fun _ hq => List.mem_append_left x.outputs hq
    have houtputs := h.names_stored hx fun _ hq => List.mem_append_right x.inputs hq
    rw [hins, ← Element.inputIds, ← Element.inputs_stored] at hinputs
    rw [houts, ← Element.outputIds, ← Element.outputs_stored] at houtputs
    exact ⟨hinputs.trans (names_ends_stored .isInput k).symm,
      houtputs.trans (names_ends_stored .isOutput k).symm⟩

end Coherent

theorem IsRenaming.stored {x y : Element} (hr : IsRenaming x y) :
    y.stored = { x.stored with name := y.stored.name } := by
  obtain ⟨_, _, _, _, _, _⟩ := x
  obtain ⟨_, _, _, _, _, _⟩ := y
  obtain ⟨rfl, rfl, rfl, rfl, rfl⟩ := hr
  rw [Element.stored, Element.stored]

/-- What is new in a graph is new in its layout. -/
theorem Evolves.stored (h : Evolves g k) : g.stored.Evolves k.stored where
  nextElement := by
    rw [ids_stored, ids_stored]
    exact h.nextElement
  nextPort := by
    rw [ids_stored, ids_stored]
    exact h.nextPort
  elements := by
    intro y hy
    rw [elements_stored] at hy
    obtain ⟨z, hz, rfl⟩ := List.mem_map.1 hy
    rw [ids_stored, elements_stored, Element.id_stored, Element.portIds_stored]
    rcases h.elements z hz with ⟨x, hx, hr⟩ | hnew
    · exact .inl ⟨x.stored, List.mem_map_of_mem hx, hr.stored⟩
    · exact .inr ⟨hnew.id, hnew.ports⟩
  ports := by
    intro q hq
    obtain ⟨y, hy, hqy⟩ := mem_ports_stored.1 hq
    rw [ids_stored]
    rcases h.elements y hy with ⟨x, hx, hr⟩ | hnew
    · refine .inl (mem_ports_stored.2 ⟨x, hx, ?_⟩)
      rw [Element.storedPorts, hr.inputs, hr.outputs, hr.id] at hqy
      exact hqy
    · exact .inr (hnew.ports q.id (map_id_storedPorts y ▸ List.mem_map_of_mem hqy))

end FlowGraph

namespace FlowStore

variable {s t : FlowStore}

/-- A store that some history makes is the layout of a well-formed graph. -/
theorem exists_of_editAll? {es : List Edit} (hs : empty.editAll? es = some s) :
    ∃ g, FlowGraph.empty.editAll? es = some g ∧ g.WellFormed ∧ s = g.stored := by
  have hlayout := FlowGraph.editAll?_stored FlowGraph.empty_wellFormed es
  rw [FlowGraph.empty_stored, hs] at hlayout
  obtain ⟨g, hg, rfl⟩ := Option.map_eq_some_iff.1 hlayout.symm
  exact ⟨g, hg, FlowGraph.editAll?_wellFormed FlowGraph.empty_wellFormed es hg, rfl⟩

/-- At every moment of a history the tables agree, on all levels, every pass has a result, and since
any earlier moment no number has passed from one thing to another. -/
theorem history_isIndexed (before after : List Edit) (hs : empty.editAll? before = some s)
    (ht : s.editAll? after = some t) :
    (∀ flow, t.Holds flow → flow.IsIndexed) ∧ (∀ r, (t.rewriteBy? r).isSome = true) ∧
      Evolves s t := by
  obtain ⟨g, hg, hwf, rfl⟩ := exists_of_editAll? hs
  rw [FlowGraph.editAll?_stored hwf] at ht
  obtain ⟨k, hk, rfl⟩ := Option.map_eq_some_iff.1 ht
  have hkwf := FlowGraph.editAll?_wellFormed hwf after hk
  refine ⟨fun flow hflow => ?_, fun r => ?_, (FlowGraph.editAll?_evolves hwf hk).stored⟩
  · obtain ⟨l, hl, rfl⟩ := FlowGraph.WellFormed.exists_of_holds hflow hkwf rfl
    exact hl.coherent.isIndexed_stored
  · rw [FlowGraph.rewriteBy?_stored hkwf]
    rfl

/-- A part in front of a shuffle, with a connection that is refused, an input of the part renamed
before the part is made, and an element removed that is not there. -/
def firstEdits : List Edit :=
  let desc : OperatorDesc := { name := "r", kind := "fold", resources := [] }
  let key : PortDecl := { PortDecl.plain "in" "Record" with key := some ⟨["key"], []⟩ }
  let part : List Edit :=
    [.input "a" "Record", .pseudo "m" "Record" .none, .output "z" "Record", .connect 0 1,
      .connect 2 3, .rename 0 "first"]
  [.input "in" "Record", .flowPart "part" part,
    .operator "r" desc [key] [.plain "out" "Record"] .shuffle, .output "out" "Record",
    .connect 0 1, .connect 2 3, .connect 4 5, .connect 5 0, .remove 9]

/-- Changes around connections and ports, one of them at an input port, and all passes. -/
def revisionEdits : List Edit :=
  [.insertOn ⟨0, 1⟩ .none, .insertAfter 4 .stage, .insertAfter 5 .none, .bypass 4, .rename 3 "sink",
    .disconnect 2 3, .connect 2 3, .rewrite .flatten, .remove 0, .rewrite .normalize]

theorem revision_isIndexed : ∃ s t, empty.editAll? firstEdits = some s ∧
    s.editAll? revisionEdits = some t ∧ s.ports.map (·.owner) = [0, 1, 1, 2, 2, 3] ∧
      (∀ flow, t.Holds flow → flow.IsIndexed) ∧ (∀ r, (t.rewriteBy? r).isSome = true) ∧
        Evolves s t := by
  obtain ⟨g, k, hg, hk, howners⟩ : ∃ g k, FlowGraph.empty.editAll? firstEdits = some g ∧
      g.editAll? revisionEdits = some k ∧ g.stored.ports.map (·.owner) = [0, 1, 1, 2, 2, 3] :=
    ⟨_, _, rfl, rfl, rfl⟩
  have hwf := FlowGraph.editAll?_wellFormed FlowGraph.empty_wellFormed firstEdits hg
  have hs : empty.editAll? firstEdits = some g.stored := by
    rw [← FlowGraph.empty_stored, FlowGraph.editAll?_stored FlowGraph.empty_wellFormed, hg,
      Option.map_some]
  have ht : g.stored.editAll? revisionEdits = some k.stored := by
    rw [FlowGraph.editAll?_stored hwf, hk, Option.map_some]
  exact ⟨_, _, hs, ht, howners, history_isIndexed firstEdits revisionEdits hs ht⟩

end FlowStore
end FlowPlan
