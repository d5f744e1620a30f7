import FlowPlan.Proofs.Neighbours
import Mathlib.Data.List.Flatten

/-!
What each change of a graph does to its elements and connections, and that it keeps the graph
coherent.

Changes of connections leave the elements alone, so whether a port is there does not depend on
them.  A change that adds an element gives it numbers that were not in use.
-/

namespace FlowPlan
namespace FlowGraph

variable {g : FlowGraph}

/-! ## Numbered ports -/

theorem map_id_numberPorts (ids : IdSupply) (ds : List PortDecl) :
    (numberPorts ids ds).1.map (·.id) = List.range' ids.nextPort ds.length := by
  induction ds generalizing ids with
  | nil => rfl
  | cons d ds ih =>
    simp only [numberPorts, List.map_cons, ih, List.length_cons, List.range'_succ]
    rfl

theorem decls_numberPorts (ids : IdSupply) (ds : List PortDecl) :
    decls (numberPorts ids ds).1 = ds := by
  induction ds generalizing ids with
  | nil => rfl
  | cons d ds ih =>
    show d :: decls (numberPorts ids.takePort.2 ds).1 = d :: ds
    rw [ih]

/-- The numbers of ports are taken, and no others. -/
theorem ids_numberPorts (ids : IdSupply) (ds : List PortDecl) :
    (numberPorts ids ds).2 = { ids with nextPort := ids.nextPort + ds.length } := by
  induction ds generalizing ids with
  | nil => rfl
  | cons d ds ih =>
    show (numberPorts ids.takePort.2 ds).2 = _
    rw [ih, List.length_cons, Nat.add_comm ds.length 1, ← Nat.add_assoc]
    rfl

theorem inputIds_numbered (g : FlowGraph) (d : ElementDecl) :
    (g.numbered d).inputIds = List.range' g.ids.nextPort d.inputs.length :=
  map_id_numberPorts _ _

theorem outputIds_numbered (g : FlowGraph) (d : ElementDecl) :
    (g.numbered d).outputIds
      = List.range' (g.ids.nextPort + d.inputs.length) d.outputs.length := by
  show (numberPorts (numberPorts _ d.inputs).2 d.outputs).1.map (·.id) = _
  rw [map_id_numberPorts, ids_numberPorts]

theorem portIds_numbered (g : FlowGraph) (d : ElementDecl) :
    (g.numbered d).portIds
      = List.range' g.ids.nextPort (d.inputs.length + d.outputs.length) := by
  rw [Element.portIds_eq, inputIds_numbered, outputIds_numbered, List.range'_append_1]

theorem decls_inputs_numbered (g : FlowGraph) (d : ElementDecl) :
    decls (g.numbered d).inputs = d.inputs := decls_numberPorts _ _

theorem decls_outputs_numbered (g : FlowGraph) (d : ElementDecl) :
    decls (g.numbered d).outputs = d.outputs := decls_numberPorts _ _

theorem numbered_shaped {d : ElementDecl} (hd : d.Shaped) : (g.numbered d).Shaped := by
  rw [Element.Shaped, decls_inputs_numbered, decls_outputs_numbered]
  exact hd

/-! ## Adding an element -/

theorem elements_add (g : FlowGraph) (d : ElementDecl) :
    (g.add d).elements = g.elements ++ [g.numbered d] := rfl

theorem ids_add (g : FlowGraph) (d : ElementDecl) :
    (g.add d).ids = ⟨g.ids.nextElement + 1,
      g.ids.nextPort + (d.inputs.length + d.outputs.length)⟩ := by
  show (numberPorts (numberPorts g.ids.takeElement.2 d.inputs).2 d.outputs).2 = _
  rw [ids_numberPorts, ids_numberPorts, ← Nat.add_assoc]
  rfl

theorem mem_add {d : ElementDecl} {e : Element} :
    e ∈ (g.add d).elements ↔ e ∈ g.elements ∨ e = g.numbered d := by
  rw [elements_add, List.mem_append, List.mem_singleton]

theorem isOutputPort_add {d : ElementDecl} {p : PortId} :
    (g.add d).isOutputPort p = true ↔ g.isOutputPort p = true ∨ p ∈ (g.numbered d).outputIds := by
  simp only [isOutputPort_iff, mem_add, or_and_right, exists_or, exists_eq_left]

theorem isInputPort_add {d : ElementDecl} {p : PortId} :
    (g.add d).isInputPort p = true ↔ g.isInputPort p = true ∨ p ∈ (g.numbered d).inputIds := by
  simp only [isInputPort_iff, mem_add, or_and_right, exists_or, exists_eq_left]

theorem add_coherent (h : g.Coherent) {d : ElementDecl} (hd : d.Shaped) : (g.add d).Coherent where
  ascending := by
    rw [elements_add, List.pairwise_append]
    refine ⟨h.ascending, List.pairwise_singleton _ _, fun e he e' he' => ?_⟩
    rw [List.mem_singleton.1 he']
    exact h.idsBelow e he
  idsBelow := by
    intro e he
    rw [ids_add]
    rcases mem_add.1 he with he | rfl
    · exact Nat.lt_succ_of_lt (h.idsBelow e he)
    · exact Nat.lt_succ_self _
  portsOnce := by
    rw [elements_add, List.flatMap_append, List.flatMap_singleton, portIds_numbered,
      List.nodup_append]
    refine ⟨h.portsOnce, List.nodup_range', ?_⟩
    rintro p hp q hq rfl
    obtain ⟨e, he, hpe⟩ := List.mem_flatMap.1 hp
    exact Nat.not_lt.2 (List.mem_range'_1.1 hq).1 (h.portsBelow e he p hpe)
  portsBelow := by
    intro e he p hp
    rw [ids_add]
    rcases mem_add.1 he with he | rfl
    · exact Nat.lt_add_right _ (h.portsBelow e he p hp)
    · rw [portIds_numbered] at hp
      exact (List.mem_range'_1.1 hp).2
  joined := by
    intro c hc
    exact ⟨isOutputPort_add.2 (.inl (h.joined c hc).1), isInputPort_add.2 (.inl (h.joined c hc).2)⟩
  connectedOnce := h.connectedOnce
  shaped := by
    intro e he
    rcases mem_add.1 he with he | rfl
    · exact h.shaped e he
    · exact numbered_shaped hd

/-! ## Connecting and disconnecting -/

theorem ids_connect (g : FlowGraph) (u d : PortId) : (g.connect u d).ids = g.ids := by
  unfold connect
  split <;> rfl

theorem isOutputPort_congr {k : FlowGraph} (he : k.elements = g.elements) (p : PortId) :
    k.isOutputPort p = g.isOutputPort p := by
  rw [isOutputPort, isOutputPort, he]

theorem isInputPort_congr {k : FlowGraph} (he : k.elements = g.elements) (p : PortId) :
    k.isInputPort p = g.isInputPort p := by
  rw [isInputPort, isInputPort, he]

/-- What is true of the elements and of the numbers is not affected by connections. -/
theorem coherent_of_elements_eq {k : FlowGraph} (h : g.Coherent) (hids : k.ids = g.ids)
    (he : k.elements = g.elements)
    (hj : ∀ c ∈ k.connections, g.isOutputPort c.source = true ∧ g.isInputPort c.target = true)
    (ho : k.connections.Nodup) : k.Coherent where
  ascending := he ▸ h.ascending
  idsBelow := by rw [he, hids]; exact h.idsBelow
  portsOnce := he ▸ h.portsOnce
  portsBelow := by rw [he, hids]; exact h.portsBelow
  joined := by
    intro c hc
    rw [isOutputPort_congr he, isInputPort_congr he]
    exact hj c hc
  connectedOnce := ho
  shaped := he ▸ h.shaped

theorem mem_connect {u d : PortId} {c : Connection} :
    c ∈ (g.connect u d).connections ↔
      c ∈ g.connections ∨
        (c = ⟨u, d⟩ ∧ g.isOutputPort u = true ∧ g.isInputPort d = true) := by
  unfold connect
  split
  case isTrue hcan =>
    simp only [canConnect, Bool.and_eq_true] at hcan
    simp [hcan.1.1, hcan.1.2]
  case isFalse hcan =>
    constructor
    · exact .inl
    · intro hmem
      rcases hmem with hc | ⟨rfl, hu, hd⟩
      · exact hc
      · simpa [canConnect, hu, hd] using hcan

theorem connect_coherent (h : g.Coherent) (u d : PortId) : (g.connect u d).Coherent := by
  refine coherent_of_elements_eq h (ids_connect g u d) (elements_connect g u d) ?_ ?_
  · intro c hc
    rcases mem_connect.1 hc with hc | ⟨rfl, hu, hd⟩
    · exact h.joined c hc
    · exact ⟨hu, hd⟩
  · unfold connect
    split
    case isTrue hcan =>
      simp only [canConnect, Bool.and_eq_true, Bool.not_eq_true', List.contains_eq_mem,
        decide_eq_false_iff_not] at hcan
      refine List.nodup_append.2 ⟨h.connectedOnce, List.nodup_singleton _, fun c hc c' hc' => ?_⟩
      rw [List.mem_singleton.1 hc']
      intro heq
      subst heq
      exact hcan.2 hc
    case isFalse => exact h.connectedOnce

theorem mem_connectAll {pairs : List (PortId × PortId)} {c : Connection} :
    c ∈ (g.connectAll pairs).connections ↔
      c ∈ g.connections ∨ ((c.source, c.target) ∈ pairs ∧ g.isOutputPort c.source = true ∧
        g.isInputPort c.target = true) := by
  induction pairs generalizing g with
  | nil => simp [connectAll]
  | cons p pairs ih =>
    obtain ⟨u, d⟩ := p
    show c ∈ ((g.connect u d).connectAll pairs).connections ↔ _
    rw [ih, mem_connect, isOutputPort_congr (elements_connect g u d),
      isInputPort_congr (elements_connect g u d), List.mem_cons, or_assoc]
    refine or_congr_right ⟨?_, ?_⟩
    · intro hmem
      rcases hmem with ⟨rfl, hu, hd⟩ | ⟨hp, hu, hd⟩
      · exact ⟨.inl rfl, hu, hd⟩
      · exact ⟨.inr hp, hu, hd⟩
    · intro hmem
      obtain ⟨heq | hp, hu, hd⟩ := hmem
      · obtain ⟨s, t⟩ := c
        obtain ⟨rfl, rfl⟩ := Prod.mk.inj heq
        exact .inl ⟨rfl, hu, hd⟩
      · exact .inr ⟨hp, hu, hd⟩

theorem connectAll_coherent (h : g.Coherent) (pairs : List (PortId × PortId)) :
    (g.connectAll pairs).Coherent := by
  induction pairs generalizing g with
  | nil => exact h
  | cons p pairs ih => exact ih (connect_coherent h p.1 p.2)

theorem mem_disconnect {u d : PortId} {c : Connection} :
    c ∈ (g.disconnect u d).connections ↔ c ∈ g.connections ∧ c ≠ ⟨u, d⟩ := by
  simp [disconnect]

theorem disconnect_coherent (h : g.Coherent) (u d : PortId) : (g.disconnect u d).Coherent :=
  coherent_of_elements_eq h rfl rfl (fun c hc => h.joined c (mem_disconnect.1 hc).1)
    (h.connectedOnce.filter _)

/-! ## Removing an element -/

section Remove

variable {e : Element}

theorem removeElement_eq (h : g.Coherent) (he : e ∈ g.elements) :
    g.removeElement e.id =
      { g with elements := g.elements.filter (·.id ≠ e.id),
               connections := g.connections.filter fun c => !touches e c } := by
  rw [removeElement, h.element?_eq_some he]

theorem ids_removeElement (h : g.Coherent) (he : e ∈ g.elements) :
    (g.removeElement e.id).ids = g.ids := by
  rw [removeElement_eq h he]

theorem mem_removeElement (h : g.Coherent) (he : e ∈ g.elements) {x : Element} :
    x ∈ (g.removeElement e.id).elements ↔ x ∈ g.elements ∧ x ≠ e := by
  rw [removeElement_eq h he]
  simp only [List.mem_filter, decide_eq_true_eq]
  constructor
  · intro hmem
    obtain ⟨hx, hne⟩ := hmem
    exact ⟨hx, fun heq => hne (heq ▸ rfl)⟩
  · intro hmem
    obtain ⟨hx, hne⟩ := hmem
    exact ⟨hx, fun hid => hne (h.eq_of_id_eq hx he hid)⟩

theorem mem_connections_removeElement (h : g.Coherent) (he : e ∈ g.elements) {c : Connection} :
    c ∈ (g.removeElement e.id).connections ↔
      c ∈ g.connections ∧ c.source ∉ e.outputIds ∧ c.target ∉ e.inputIds := by
  rw [removeElement_eq h he]
  simp only [List.mem_filter, touches, Bool.not_eq_true', Bool.or_eq_false_iff]
  refine and_congr_right fun hc => ?_
  rw [← Bool.not_eq_true, ← Bool.not_eq_true, Element.owns_iff, Element.owns_iff]
  refine and_congr (not_congr ⟨fun hp => ?_, fun hp => ?_⟩) (not_congr ⟨fun hp => ?_, fun hp => ?_⟩)
  · exact h.source_mem_outputIds hc he hp
  · exact Element.mem_portIds.2 (.inr hp)
  · exact h.target_mem_inputIds hc he hp
  · exact Element.mem_portIds.2 (.inl hp)

theorem isOutputPort_removeElement (h : g.Coherent) (he : e ∈ g.elements) {p : PortId} :
    (g.removeElement e.id).isOutputPort p = true ↔
      g.isOutputPort p = true ∧ p ∉ e.outputIds := by
  rw [isOutputPort_iff, isOutputPort_iff]
  constructor
  · intro hmem
    obtain ⟨x, hx, hp⟩ := hmem
    obtain ⟨hx, hne⟩ := (mem_removeElement h he).1 hx
    refine ⟨⟨x, hx, hp⟩, fun hpe => hne ?_⟩
    exact h.eq_of_output hx he hp hpe
  · intro hmem
    obtain ⟨⟨x, hx, hp⟩, hpe⟩ := hmem
    exact ⟨x, (mem_removeElement h he).2 ⟨hx, fun heq => hpe (heq ▸ hp)⟩, hp⟩

theorem isInputPort_removeElement (h : g.Coherent) (he : e ∈ g.elements) {p : PortId} :
    (g.removeElement e.id).isInputPort p = true ↔
      g.isInputPort p = true ∧ p ∉ e.inputIds := by
  rw [isInputPort_iff, isInputPort_iff]
  constructor
  · intro hmem
    obtain ⟨x, hx, hp⟩ := hmem
    obtain ⟨hx, hne⟩ := (mem_removeElement h he).1 hx
    refine ⟨⟨x, hx, hp⟩, fun hpe => hne ?_⟩
    exact h.eq_of_input hx he hp hpe
  · intro hmem
    obtain ⟨⟨x, hx, hp⟩, hpe⟩ := hmem
    exact ⟨x, (mem_removeElement h he).2 ⟨hx, fun heq => hpe (heq ▸ hp)⟩, hp⟩

theorem removeElement_coherent (h : g.Coherent) (he : e ∈ g.elements) :
    (g.removeElement e.id).Coherent where
  ascending := by
    rw [removeElement_eq h he]
    exact h.ascending.filter _
  idsBelow := by
    intro x hx
    rw [ids_removeElement h he]
    exact h.idsBelow x ((mem_removeElement h he).1 hx).1
  portsOnce := by
    rw [removeElement_eq h he]
    exact h.portsOnce.sublist (List.filter_sublist.flatMap _)
  portsBelow := by
    intro x hx
    rw [ids_removeElement h he]
    exact h.portsBelow x ((mem_removeElement h he).1 hx).1
  joined := by
    intro c hc
    obtain ⟨hc, hs, ht⟩ := (mem_connections_removeElement h he).1 hc
    exact ⟨(isOutputPort_removeElement h he).2 ⟨(h.joined c hc).1, hs⟩,
      (isInputPort_removeElement h he).2 ⟨(h.joined c hc).2, ht⟩⟩
  connectedOnce := by
    rw [removeElement_eq h he]
    exact h.connectedOnce.filter _
  shaped := fun x hx => h.shaped x ((mem_removeElement h he).1 hx).1

end Remove

/-! ## All levels -/

/-- Elements that are new have to be well-formed inside; the others are so already. -/
theorem WellFormed.of_coherent {k : FlowGraph} (h : g.WellFormed) (hk : k.Coherent)
    (hmem : ∀ x ∈ k.elements, x ∈ g.elements ∨ ∀ inner, x.kind = .flowPart inner →
      inner.WellFormed) : k.WellFormed := by
  refine .intro hk fun x hx inner hkind => ?_
  rcases hmem x hx with hx | hx
  · exact h.inner hx hkind
  · exact hx inner hkind

theorem add_wellFormed (h : g.WellFormed) {d : ElementDecl} (hd : d.Shaped)
    (hinner : ∀ inner, d.kind = .flowPart inner → inner.WellFormed) : (g.add d).WellFormed := by
  refine h.of_coherent (add_coherent h.coherent hd) fun x hx => ?_
  rcases mem_add.1 hx with hx | rfl
  · exact .inl hx
  · exact .inr hinner

theorem connect_wellFormed (h : g.WellFormed) (u d : PortId) : (g.connect u d).WellFormed :=
  h.of_coherent (connect_coherent h.coherent u d) fun _ hx => .inl (elements_connect g u d ▸ hx)

theorem connectAll_wellFormed (h : g.WellFormed) (pairs : List (PortId × PortId)) :
    (g.connectAll pairs).WellFormed := by
  induction pairs generalizing g with
  | nil => exact h
  | cons p pairs ih => exact ih (connect_wellFormed h p.1 p.2)

theorem removeElement_wellFormed (h : g.WellFormed) {e : Element} (he : e ∈ g.elements) :
    (g.removeElement e.id).WellFormed :=
  h.of_coherent (removeElement_coherent h.coherent he) fun _ hx =>
    .inl ((mem_removeElement h.coherent he).1 hx).1

/-- A graph of some elements and some connections between their ports. -/
def assemble (decls : List ElementDecl) (pairs : List (PortId × PortId)) : FlowGraph :=
  (decls.foldl add empty).connectAll pairs

theorem assemble_wellFormed {decls : List ElementDecl} (pairs : List (PortId × PortId))
    (hd : ∀ d ∈ decls, d.IsSound) :
    (assemble decls pairs).WellFormed :=
  connectAll_wellFormed (List.foldlRecOn decls add empty_wellFormed fun _ hg d hmem =>
    add_wellFormed hg (hd d hmem).1 (hd d hmem).2) pairs

end FlowGraph
end FlowPlan
