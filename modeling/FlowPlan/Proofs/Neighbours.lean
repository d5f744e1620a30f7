import FlowPlan.Proofs.WellFormed

/-!
What the questions about a coherent graph answer.

Each list of ports, connections or neighbours is characterised by its members.
-/

namespace FlowPlan
namespace FlowGraph

variable {g : FlowGraph}

/-- Some connection leads from one element to the other. -/
def Feeds (g : FlowGraph) (x y : Element) : Prop :=
  ∃ c ∈ g.connections, c.source ∈ x.outputIds ∧ c.target ∈ y.inputIds

theorem mem_idsWhere {p : Element → Bool} {i : ElementId} :
    i ∈ g.idsWhere p ↔ ∃ e ∈ g.elements, p e = true ∧ e.id = i := by
  simp [idsWhere, and_assoc]

namespace Coherent

theorem idsWhere_ascending (h : g.Coherent) (p : Element → Bool) :
    (g.idsWhere p).Pairwise (· < ·) := List.pairwise_map.2 (h.ascending.filter p)

/-! ## The two ends of a connection -/

theorem source_mem (h : g.Coherent) {c : Connection} (hc : c ∈ g.connections) :
    ∃ e ∈ g.elements, c.source ∈ e.outputIds := isOutputPort_iff.1 (h.joined c hc).1

theorem target_mem (h : g.Coherent) {c : Connection} (hc : c ∈ g.connections) :
    ∃ e ∈ g.elements, c.target ∈ e.inputIds := isInputPort_iff.1 (h.joined c hc).2

theorem source_mem_outputIds (h : g.Coherent) {c : Connection} {e : Element}
    (hc : c ∈ g.connections) (he : e ∈ g.elements) (hp : c.source ∈ e.portIds) :
    c.source ∈ e.outputIds := by
  obtain ⟨e', he', hout⟩ := h.source_mem hc
  obtain rfl := h.eq_of_port he he' hp (Element.mem_portIds.2 (.inr hout))
  exact hout

theorem target_mem_inputIds (h : g.Coherent) {c : Connection} {e : Element}
    (hc : c ∈ g.connections) (he : e ∈ g.elements) (hp : c.target ∈ e.portIds) :
    c.target ∈ e.inputIds := by
  obtain ⟨e', he', hin⟩ := h.target_mem hc
  obtain rfl := h.eq_of_port he he' hp (Element.mem_portIds.2 (.inl hin))
  exact hin

theorem ownerId?_iff (h : g.Coherent) {e : Element} {p : PortId} (he : e ∈ g.elements) :
    g.ownerId? p = some e.id ↔ p ∈ e.portIds := by
  rw [ownerId?, Option.map_eq_some_iff]
  constructor
  · intro hmem
    obtain ⟨e', ho, hid⟩ := hmem
    obtain ⟨he', hp⟩ := mem_of_owner?_eq_some ho
    exact h.eq_of_id_eq he' he hid ▸ hp
  · exact fun hp => ⟨e, h.owner?_eq_some he hp, rfl⟩

theorem ownerId?_of_input (h : g.Coherent) {e : Element} {p : PortId} (he : e ∈ g.elements)
    (hp : p ∈ e.inputIds) : g.ownerId? p = some e.id :=
  (h.ownerId?_iff he).2 (Element.mem_portIds.2 (.inl hp))

theorem ownerId?_of_output (h : g.Coherent) {e : Element} {p : PortId} (he : e ∈ g.elements)
    (hp : p ∈ e.outputIds) : g.ownerId? p = some e.id :=
  (h.ownerId?_iff he).2 (Element.mem_portIds.2 (.inr hp))

/-! ## Ports and connections of an element -/

theorem inputsOf_eq (h : g.Coherent) {e : Element} (he : e ∈ g.elements) :
    g.inputsOf e.id = e.inputs := by
  rw [inputsOf, h.element?_eq_some he]
  rfl

theorem outputsOf_eq (h : g.Coherent) {e : Element} (he : e ∈ g.elements) :
    g.outputsOf e.id = e.outputs := by
  rw [outputsOf, h.element?_eq_some he]
  rfl

theorem mem_incoming (h : g.Coherent) {e : Element} (he : e ∈ g.elements) {c : Connection} :
    c ∈ g.incoming e.id ↔ c ∈ g.connections ∧ c.target ∈ e.inputIds := by
  rw [incoming, h.inputsOf_eq he]
  simp only [Element.inputIds, List.mem_flatMap, List.mem_filter, List.mem_map, beq_iff_eq]
  constructor
  · intro hmem
    obtain ⟨p, hp, hc, ht⟩ := hmem
    exact ⟨hc, p, hp, ht.symm⟩
  · intro hmem
    obtain ⟨hc, p, hp, ht⟩ := hmem
    exact ⟨p, hp, hc, ht.symm⟩

theorem mem_outgoing (h : g.Coherent) {e : Element} (he : e ∈ g.elements) {c : Connection} :
    c ∈ g.outgoing e.id ↔ c ∈ g.connections ∧ c.source ∈ e.outputIds := by
  rw [outgoing, h.outputsOf_eq he]
  simp only [Element.outputIds, List.mem_flatMap, List.mem_filter, List.mem_map, beq_iff_eq]
  constructor
  · intro hmem
    obtain ⟨p, hp, hc, hs⟩ := hmem
    exact ⟨hc, p, hp, hs.symm⟩
  · intro hmem
    obtain ⟨hc, p, hp, hs⟩ := hmem
    exact ⟨p, hp, hc, hs.symm⟩

/-! ## Neighbours -/

theorem mem_successors (h : g.Coherent) {x : Element} (hx : x ∈ g.elements) {i : ElementId} :
    i ∈ g.successors x.id ↔ ∃ y ∈ g.elements, y.id = i ∧ g.Feeds x y := by
  rw [successors, List.mem_eraseDups, List.mem_filterMap]
  constructor
  · intro hmem
    obtain ⟨c, hc, ho⟩ := hmem
    obtain ⟨hmem, hs⟩ := (h.mem_outgoing hx).1 hc
    obtain ⟨y, hy, ht⟩ := h.target_mem hmem
    have hyo := h.ownerId?_of_input hy ht
    exact ⟨y, hy, Option.some.inj (hyo.symm.trans ho), c, hmem, hs, ht⟩
  · intro hmem
    obtain ⟨y, hy, rfl, c, hmem, hs, ht⟩ := hmem
    exact ⟨c, (h.mem_outgoing hx).2 ⟨hmem, hs⟩, h.ownerId?_of_input hy ht⟩

theorem mem_predecessors (h : g.Coherent) {y : Element} (hy : y ∈ g.elements) {i : ElementId} :
    i ∈ g.predecessors y.id ↔ ∃ x ∈ g.elements, x.id = i ∧ g.Feeds x y := by
  rw [predecessors, List.mem_eraseDups, List.mem_filterMap]
  constructor
  · intro hmem
    obtain ⟨c, hc, ho⟩ := hmem
    obtain ⟨hmem, ht⟩ := (h.mem_incoming hy).1 hc
    obtain ⟨x, hx, hs⟩ := h.source_mem hmem
    have hxo := h.ownerId?_of_output hx hs
    exact ⟨x, hx, Option.some.inj (hxo.symm.trans ho), c, hmem, hs, ht⟩
  · intro hmem
    obtain ⟨x, hx, rfl, c, hmem, hs, ht⟩ := hmem
    exact ⟨c, (h.mem_incoming hy).2 ⟨hmem, ht⟩, h.ownerId?_of_output hx hs⟩

theorem predecessors_isEmpty (h : g.Coherent) {y : Element} (hy : y ∈ g.elements) :
    (g.predecessors y.id).isEmpty = false ↔ ∃ x ∈ g.elements, g.Feeds x y := by
  rw [List.isEmpty_eq_false_iff_exists_mem]
  constructor
  · intro hmem
    obtain ⟨i, hi⟩ := hmem
    obtain ⟨x, hx, -, hf⟩ := (h.mem_predecessors hy).1 hi
    exact ⟨x, hx, hf⟩
  · intro hmem
    obtain ⟨x, hx, hf⟩ := hmem
    exact ⟨x.id, (h.mem_predecessors hy).2 ⟨x, hx, rfl, hf⟩⟩

theorem successors_isEmpty (h : g.Coherent) {x : Element} (hx : x ∈ g.elements) :
    (g.successors x.id).isEmpty = false ↔ ∃ y ∈ g.elements, g.Feeds x y := by
  rw [List.isEmpty_eq_false_iff_exists_mem]
  constructor
  · intro hmem
    obtain ⟨i, hi⟩ := hmem
    obtain ⟨y, hy, -, hf⟩ := (h.mem_successors hx).1 hi
    exact ⟨y, hy, hf⟩
  · intro hmem
    obtain ⟨y, hy, hf⟩ := hmem
    exact ⟨y.id, (h.mem_successors hx).2 ⟨y, hy, rfl, hf⟩⟩

theorem all_predecessors (h : g.Coherent) {y : Element} (hy : y ∈ g.elements)
    {q : ElementId → Bool} :
    (g.predecessors y.id).all q = true ↔ ∀ x ∈ g.elements, g.Feeds x y → q x.id = true := by
  rw [List.all_eq_true]
  constructor
  · exact fun hall x hx hf => hall _ ((h.mem_predecessors hy).2 ⟨x, hx, rfl, hf⟩)
  · intro hall i hi
    obtain ⟨x, hx, rfl, hf⟩ := (h.mem_predecessors hy).1 hi
    exact hall x hx hf

theorem all_successors (h : g.Coherent) {x : Element} (hx : x ∈ g.elements)
    {q : ElementId → Bool} :
    (g.successors x.id).all q = true ↔ ∀ y ∈ g.elements, g.Feeds x y → q y.id = true := by
  rw [List.all_eq_true]
  constructor
  · exact fun hall y hy hf => hall _ ((h.mem_successors hx).2 ⟨y, hy, rfl, hf⟩)
  · intro hall i hi
    obtain ⟨y, hy, rfl, hf⟩ := (h.mem_successors hx).1 hi
    exact hall y hy hf

/-- Behind an output port there are the targets of its connections. -/
theorem mem_opposites (h : g.Coherent) {p d : PortId} (hp : g.isOutputPort p = true) :
    d ∈ g.opposites p ↔ ⟨p, d⟩ ∈ g.connections := by
  obtain ⟨e, he, hpe⟩ := isOutputPort_iff.1 hp
  rw [opposites, List.mem_filterMap]
  constructor
  · intro hmem
    obtain ⟨⟨s, t⟩, hc, hd⟩ := hmem
    have hne : t ≠ p := by
      intro heq
      subst heq
      obtain ⟨e', he', ht⟩ := h.target_mem hc
      exact h.not_mem_outputIds he' he ht hpe
    by_cases hs : s = p
    · simp only [hs, if_true, Option.some.injEq] at hd
      exact hd ▸ hs ▸ hc
    · simp [hs, hne] at hd
  · intro hc
    exact ⟨⟨p, d⟩, hc, by simp⟩

theorem mem_oppositeOwners (h : g.Coherent) {p : PortId} (hp : g.isOutputPort p = true)
    {i : ElementId} : i ∈ g.oppositeOwners p ↔
      ∃ y ∈ g.elements, y.id = i ∧ ∃ d ∈ y.inputIds, ⟨p, d⟩ ∈ g.connections := by
  rw [oppositeOwners, List.mem_filterMap]
  constructor
  · intro hmem
    obtain ⟨d, hd, howner⟩ := hmem
    have hc := (h.mem_opposites hp).1 hd
    obtain ⟨y, hy, hdy⟩ := h.target_mem hc
    rw [h.ownerId?_of_input hy hdy] at howner
    exact ⟨y, hy, Option.some.inj howner, d, hdy, hc⟩
  · intro hmem
    obtain ⟨y, hy, rfl, d, hd, hc⟩ := hmem
    exact ⟨d, (h.mem_opposites hp).2 hc, h.ownerId?_of_input hy hd⟩

/-- In front of an input port there are the sources of its connections. -/
theorem mem_opposites_of_isInputPort (h : g.Coherent) {p u : PortId}
    (hp : g.isInputPort p = true) : u ∈ g.opposites p ↔ ⟨u, p⟩ ∈ g.connections := by
  obtain ⟨e, he, hpe⟩ := isInputPort_iff.1 hp
  have hne : ∀ c ∈ g.connections, c.source ≠ p := by
    intro c hc heq
    obtain ⟨e', he', hs⟩ := h.source_mem hc
    exact h.not_mem_outputIds he he' hpe (heq ▸ hs)
  rw [opposites, List.mem_filterMap]
  constructor
  · intro hmem
    obtain ⟨⟨s, t⟩, hc, hu⟩ := hmem
    have hs : s ≠ p := hne _ hc
    by_cases ht : t = p
    · simp only [hs, ht, if_true, if_false, Option.some.injEq] at hu
      exact hu ▸ ht ▸ hc
    · simp [hs, ht] at hu
  · intro hc
    have hu : u ≠ p := hne _ hc
    exact ⟨⟨u, p⟩, hc, by simp [hu]⟩

/-! ## What an element is -/

theorem isStageBoundary_eq (h : g.Coherent) {e : Element} (he : e ∈ g.elements) :
    g.isStageBoundary e.id = e.isStageBoundary := by
  rw [isStageBoundary, h.element?_eq_some he, Option.any_some]

theorem isShuffleBoundary_eq (h : g.Coherent) {e : Element} (he : e ∈ g.elements) :
    g.isShuffleBoundary e.id = e.isShuffleBoundary := by
  rw [isShuffleBoundary, h.element?_eq_some he, Option.any_some]

theorem isBoundary_eq (h : g.Coherent) {e : Element} (he : e ∈ g.elements) :
    g.isBoundary e.id = e.isBoundary := by
  rw [isBoundary, h.element?_eq_some he, Option.any_some]

theorem isCheckpoint_eq (h : g.Coherent) {e : Element} (he : e ∈ g.elements) :
    g.isCheckpoint e.id = e.isCheckpoint := by
  rw [isCheckpoint, h.element?_eq_some he, Option.any_some]

end Coherent
end FlowGraph
end FlowPlan
