import FlowPlan.Proofs.UnitUnfolding

/-!
Replacing a part keeps the wires of a net, except those by which the part feeds itself.

A connection at the part is made again at the entries and exits from the ports that it joined
before.  If both of its ends are at the part, each of the two attempts looks for a port that is
gone, and the connection is lost.
-/

namespace FlowPlan
namespace FlowGraph

variable {g inner : FlowGraph} {e x y z : Element} {c : Connection} {p q : PortId}

theorem selfFeeds_iff :
    g.selfFeeds c = true ↔ ∃ z ∈ g.elements, z.isFlowPart = true ∧ c.source ∈ z.outputIds ∧
      c.target ∈ z.inputIds := by
  simp only [selfFeeds, List.any_eq_true, Bool.and_eq_true, List.contains_iff_mem, and_assoc]

section Part

variable (h : g.WellFormed) (he : e ∈ g.elements) (hk : e.kind = .flowPart inner)

include h he hk

/-! ## Ports that are moved or copied -/

theorem lookup_copies (hx : x ∈ inner.elements) (hq : q ∈ x.portIds) :
    (g.unfolding e inner).copies.lookup q = some (g.copiedPort e inner q) := by
  have hkeys := keys_copies h he hk
  have hmem : q ∈ (g.unfolding e inner).copies.map (·.1) := by
    rw [hkeys]
    exact List.mem_flatMap.2 ⟨x, hx, hq⟩
  obtain ⟨⟨q, q'⟩, hpair, rfl⟩ := List.mem_map.1 hmem
  have hlookup := lookup_of_mem (by rw [hkeys]; exact (h.inner he hk).coherent.portsOnce) hpair
  rw [copiedPort, hlookup, Option.getD_some]

theorem copiedPort_mem_outputIds (hxy : (x, y) ∈ g.copies e inner) (hq : q ∈ x.outputIds) :
    g.copiedPort e inner q ∈ y.outputIds := by
  obtain ⟨-, hx, -, -⟩ := mem_of_mem_copies h he hk hxy
  have hout : x.isOutput = false := by
    rw [← Bool.not_eq_true]
    intro hout
    rw [outputIds_eq_nil hx hout] at hq
    cases hq
  rw [← (map_copiedPort h he hk hxy).2 hout]
  exact List.mem_map_of_mem hq

theorem copiedPort_mem_inputIds (hxy : (x, y) ∈ g.copies e inner) (hq : q ∈ x.inputIds) :
    g.copiedPort e inner q ∈ y.inputIds := by
  obtain ⟨-, hx, -, -⟩ := mem_of_mem_copies h he hk hxy
  have hin : x.isInput = false := by
    rw [← Bool.not_eq_true]
    intro hin
    rw [inputIds_eq_nil hx hin] at hq
    cases hq
  rw [← (map_copiedPort h he hk hxy).1 hin]
  exact List.mem_map_of_mem hq

/-- The inputs of the part are taken over by the copies of the inputs of its flow. -/
theorem movedPort_mem_inputIds (hp : p ∈ e.inputIds) :
    ∃ x y, (x, y) ∈ g.copies e inner ∧ x.isInput = true ∧
      g.movedPort e inner p ∈ y.inputIds := by
  have hmem : g.movedPort e inner p ∈ (g.unfolding e inner).entries := by
    rw [← (map_movedPort h he hk).1]
    exact List.mem_map_of_mem hp
  rw [(unfolding_spec g e inner).2.2.2.1] at hmem
  obtain ⟨⟨x, y⟩, hxy, hport⟩ := List.mem_flatMap.1 hmem
  unfold entryPorts at hport
  split at hport
  case isTrue hin => exact ⟨x, y, hxy, hin, List.mem_of_mem_take hport⟩
  case isFalse => cases hport

theorem movedPort_mem_outputIds (hp : p ∈ e.outputIds) :
    ∃ x y, (x, y) ∈ g.copies e inner ∧ x.isOutput = true ∧
      g.movedPort e inner p ∈ y.outputIds := by
  have hmem : g.movedPort e inner p ∈ (g.unfolding e inner).exits := by
    rw [← (map_movedPort h he hk).2]
    exact List.mem_map_of_mem hp
  rw [(unfolding_spec g e inner).2.2.2.2] at hmem
  obtain ⟨⟨x, y⟩, hxy, hport⟩ := List.mem_flatMap.1 hmem
  unfold exitPorts at hport
  split at hport
  case isTrue hout => exact ⟨x, y, hxy, hout, List.mem_of_mem_take hport⟩
  case isFalse => cases hport

/-! ## Ports that are there when the connections are made -/

omit h he hk in
theorem exists_unfolding (P : Element → Prop) :
    (∃ z ∈ (g.unfolding e inner).graph.elements, P z) ↔
      (∃ z ∈ (g.removeElement e.id).elements, P z) ∨ ∃ x y, (x, y) ∈ g.copies e inner ∧ P y := by
  rw [(unfolding_spec g e inner).1]
  simp only [List.mem_append, List.mem_map, Prod.exists, exists_eq_right, or_and_right, exists_or]
  refine or_congr_right ⟨?_, ?_⟩
  · rintro ⟨y, ⟨x, hxy⟩, hy⟩
    exact ⟨x, y, hxy, hy⟩
  · rintro ⟨x, y, hxy, hy⟩
    exact ⟨y, ⟨x, hxy⟩, hy⟩

omit hk in
theorem isOutputPort_unfolding :
    (g.unfolding e inner).graph.isOutputPort p = true ↔
      (g.isOutputPort p = true ∧ p ∉ e.outputIds) ∨
        ∃ x y, (x, y) ∈ g.copies e inner ∧ p ∈ y.outputIds := by
  rw [← isOutputPort_removeElement h.coherent he, isOutputPort_iff, isOutputPort_iff,
    exists_unfolding]

omit hk in
theorem isInputPort_unfolding :
    (g.unfolding e inner).graph.isInputPort p = true ↔
      (g.isInputPort p = true ∧ p ∉ e.inputIds) ∨
        ∃ x y, (x, y) ∈ g.copies e inner ∧ p ∈ y.inputIds := by
  rw [← isInputPort_removeElement h.coherent he, isInputPort_iff, isInputPort_iff,
    exists_unfolding]

omit hk in
/-- A port of the part is not there any more. -/
theorem isOutputPort_unfolding_old (hp : p ∈ e.outputIds) :
    ¬ (g.unfolding e inner).graph.isOutputPort p = true := by
  rw [isOutputPort_unfolding h he]
  intro hport
  rcases hport with ⟨-, hnot⟩ | ⟨x, y, hxy, hpy⟩
  · exact hnot hp
  · exact not_mem_copy h he he (Element.mem_portIds.2 (.inr hp)) hxy
      (Element.mem_portIds.2 (.inr hpy))

omit hk in
theorem isInputPort_unfolding_old (hp : p ∈ e.inputIds) :
    ¬ (g.unfolding e inner).graph.isInputPort p = true := by
  rw [isInputPort_unfolding h he]
  intro hport
  rcases hport with ⟨-, hnot⟩ | ⟨x, y, hxy, hpy⟩
  · exact hnot hp
  · exact not_mem_copy h he he (Element.mem_portIds.2 (.inl hp)) hxy
      (Element.mem_portIds.2 (.inl hpy))

/-! ## The connections that are made -/

/-- Connections in the part, between the copies. -/
def insideOf (g : FlowGraph) (e : Element) (inner : FlowGraph) : List (PortId × PortId) :=
  inner.connections.filterMap fun c => do
    return (← (g.unfolding e inner).copies.lookup c.source,
      ← (g.unfolding e inner).copies.lookup c.target)

/-- Connections into the part, to the entries. -/
def beforeOf (g : FlowGraph) (e : Element) (inner : FlowGraph) : List (PortId × PortId) :=
  ((e.inputs.map fun p => g.opposites p.id).zip (g.unfolding e inner).entries).flatMap
    fun (us, entry) => us.map fun u => (u, entry)

/-- Connections out of the part, from the exits. -/
def behindOf (g : FlowGraph) (e : Element) (inner : FlowGraph) : List (PortId × PortId) :=
  ((e.outputs.map fun p => g.opposites p.id).zip (g.unfolding e inner).exits).flatMap
    fun (ds, exit) => ds.map fun d => (exit, d)

omit h he hk in
theorem unfold_eq :
    g.unfold e inner = (((g.unfolding e inner).graph.connectAll (insideOf g e inner)).connectAll
      (beforeOf g e inner)).connectAll (behindOf g e inner) := rfl

theorem mem_insideOf {s t : PortId} :
    (s, t) ∈ insideOf g e inner ↔ ∃ c ∈ inner.connections,
      s = g.copiedPort e inner c.source ∧ t = g.copiedPort e inner c.target := by
  have hin := (h.inner he hk).coherent
  have hpair : ∀ c ∈ inner.connections,
      (do return (← (g.unfolding e inner).copies.lookup c.source,
        ← (g.unfolding e inner).copies.lookup c.target) : Option (PortId × PortId))
        = some (g.copiedPort e inner c.source, g.copiedPort e inner c.target) := by
    intro c hc
    obtain ⟨x, hx, hs⟩ := hin.source_mem hc
    obtain ⟨y, hy, ht⟩ := hin.target_mem hc
    rw [lookup_copies h he hk hx (Element.mem_portIds.2 (.inr hs)),
      lookup_copies h he hk hy (Element.mem_portIds.2 (.inl ht))]
    rfl
  rw [insideOf, List.mem_filterMap]
  refine exists_congr fun c => and_congr_right fun hc => ?_
  rw [hpair c hc, Option.some.injEq, Prod.mk.injEq, eq_comm, and_congr_right_iff]
  exact fun _ => eq_comm

theorem mem_beforeOf {s t : PortId} :
    (s, t) ∈ beforeOf g e inner ↔
      ∃ a ∈ e.inputIds, ⟨s, a⟩ ∈ g.connections ∧ t = g.movedPort e inner a := by
  have hsenders : (e.inputs.map fun p => g.opposites p.id) = e.inputIds.map g.opposites := by
    rw [Element.inputIds, List.map_map]
    rfl
  rw [beforeOf, hsenders, ← (map_movedPort h he hk).1, List.zip_map', List.flatMap_map]
  simp only [List.mem_flatMap, List.mem_map, Prod.mk.injEq]
  refine exists_congr fun a => and_congr_right fun ha => ?_
  have hport : g.isInputPort a = true := isInputPort_iff.2 ⟨e, he, ha⟩
  simp only [h.coherent.mem_opposites_of_isInputPort hport]
  constructor
  · rintro ⟨u, hu, rfl, rfl⟩
    exact ⟨hu, rfl⟩
  · rintro ⟨hs, rfl⟩
    exact ⟨s, hs, rfl, rfl⟩

theorem mem_behindOf {s t : PortId} :
    (s, t) ∈ behindOf g e inner ↔
      ∃ b ∈ e.outputIds, ⟨b, t⟩ ∈ g.connections ∧ s = g.movedPort e inner b := by
  have hreceivers : (e.outputs.map fun p => g.opposites p.id) = e.outputIds.map g.opposites := by
    rw [Element.outputIds, List.map_map]
    rfl
  rw [behindOf, hreceivers, ← (map_movedPort h he hk).2, List.zip_map', List.flatMap_map]
  simp only [List.mem_flatMap, List.mem_map, Prod.mk.injEq]
  refine exists_congr fun b => and_congr_right fun hb => ?_
  have hport : g.isOutputPort b = true := isOutputPort_iff.2 ⟨e, he, hb⟩
  simp only [h.coherent.mem_opposites hport]
  constructor
  · rintro ⟨d, hd, rfl, rfl⟩
    exact ⟨hd, rfl⟩
  · rintro ⟨ht, rfl⟩
    exact ⟨t, ht, rfl, rfl⟩

/-- An end of a connection that is not at the part stays. -/
theorem movedPort_source (hc : c ∈ g.connections) (hs : c.source ∉ e.outputIds) :
    g.movedPort e inner c.source = c.source := by
  obtain ⟨x, hx, hxs⟩ := h.coherent.source_mem hc
  exact movedPort_other h he hk hx (fun heq => hs (heq ▸ hxs)) (Element.mem_portIds.2 (.inr hxs))

theorem movedPort_target (hc : c ∈ g.connections) (ht : c.target ∉ e.inputIds) :
    g.movedPort e inner c.target = c.target := by
  obtain ⟨x, hx, hxt⟩ := h.coherent.target_mem hc
  exact movedPort_other h he hk hx (fun heq => ht (heq ▸ hxt)) (Element.mem_portIds.2 (.inl hxt))

/-- What is connected at last: what was connected beside the part, and what the three rounds connect
between ports that are there by then. -/
theorem mem_connections_unfold {s t : PortId} :
    ⟨s, t⟩ ∈ (g.unfold e inner).connections ↔
      (((⟨s, t⟩ ∈ g.connections ∧ s ∉ e.outputIds ∧ t ∉ e.inputIds) ∨
        (∃ c ∈ inner.connections,
            s = g.copiedPort e inner c.source ∧ t = g.copiedPort e inner c.target) ∧
          (g.unfolding e inner).graph.isOutputPort s = true ∧
            (g.unfolding e inner).graph.isInputPort t = true) ∨
        (∃ a ∈ e.inputIds, ⟨s, a⟩ ∈ g.connections ∧ t = g.movedPort e inner a) ∧
          (g.unfolding e inner).graph.isOutputPort s = true ∧
            (g.unfolding e inner).graph.isInputPort t = true) ∨
        (∃ b ∈ e.outputIds, ⟨b, t⟩ ∈ g.connections ∧ s = g.movedPort e inner b) ∧
          (g.unfolding e inner).graph.isOutputPort s = true ∧
            (g.unfolding e inner).graph.isInputPort t = true := by
  rw [unfold_eq, mem_connectAll, mem_connectAll, mem_connectAll,
    isOutputPort_congr (elements_connectAll _ _), isInputPort_congr (elements_connectAll _ _),
    isOutputPort_congr (elements_connectAll _ _), isInputPort_congr (elements_connectAll _ _),
    isOutputPort_congr (elements_connectAll _ _), isInputPort_congr (elements_connectAll _ _),
    (unfolding_spec g e inner).2.1, mem_connections_removeElement h.coherent he,
    mem_insideOf h he hk, mem_beforeOf h he hk, mem_behindOf h he hk]

theorem copied_mem_unfold (hc : c ∈ inner.connections) :
    ⟨g.copiedPort e inner c.source, g.copiedPort e inner c.target⟩
      ∈ (g.unfold e inner).connections := by
  obtain ⟨x, hx, hs⟩ := (h.inner he hk).coherent.source_mem hc
  obtain ⟨z, hz, ht⟩ := (h.inner he hk).coherent.target_mem hc
  obtain ⟨y, hxy⟩ := exists_copy (g := g) (e := e) hx
  obtain ⟨w, hzw⟩ := exists_copy (g := g) (e := e) hz
  refine (mem_connections_unfold h he hk).2 (.inl (.inl (.inr ⟨⟨c, hc, rfl, rfl⟩, ?_, ?_⟩)))
  · exact (isOutputPort_unfolding h he).2
      (.inr ⟨x, y, hxy, copiedPort_mem_outputIds h he hk hxy hs⟩)
  · exact (isInputPort_unfolding h he).2
      (.inr ⟨z, w, hzw, copiedPort_mem_inputIds h he hk hzw ht⟩)

theorem moved_mem_unfold (hc : c ∈ g.connections)
    (hself : ¬ (c.source ∈ e.outputIds ∧ c.target ∈ e.inputIds)) :
    ⟨g.movedPort e inner c.source, g.movedPort e inner c.target⟩
      ∈ (g.unfold e inner).connections := by
  obtain ⟨hu, hd⟩ := h.coherent.joined c hc
  refine (mem_connections_unfold h he hk).2 ?_
  by_cases hs : c.source ∈ e.outputIds
  · -- A connection out of the part begins at an exit.
    have ht : c.target ∉ e.inputIds := fun ht => hself ⟨hs, ht⟩
    obtain ⟨x, y, hxy, -, hexit⟩ := movedPort_mem_outputIds h he hk hs
    rw [movedPort_target h he hk hc ht]
    refine .inr ⟨⟨c.source, hs, hc, rfl⟩, ?_, ?_⟩
    · exact (isOutputPort_unfolding h he).2 (.inr ⟨x, y, hxy, hexit⟩)
    · exact (isInputPort_unfolding h he).2 (.inl ⟨hd, ht⟩)
  · rw [movedPort_source h he hk hc hs]
    by_cases ht : c.target ∈ e.inputIds
    · -- A connection into the part ends at an entry.
      obtain ⟨x, y, hxy, -, hentry⟩ := movedPort_mem_inputIds h he hk ht
      refine .inl (.inr ⟨⟨c.target, ht, hc, rfl⟩, ?_, ?_⟩)
      · exact (isOutputPort_unfolding h he).2 (.inl ⟨hu, hs⟩)
      · exact (isInputPort_unfolding h he).2 (.inr ⟨x, y, hxy, hentry⟩)
    · rw [movedPort_target h he hk hc ht]
      exact .inl (.inl (.inl ⟨hc, hs, ht⟩))

/-- The connections after a part is replaced: those of the graph, from the part to itself apart, and
those in the part. -/
theorem mem_unfold :
    c ∈ (g.unfold e inner).connections ↔
      (∃ c' ∈ g.connections, ¬ (c'.source ∈ e.outputIds ∧ c'.target ∈ e.inputIds) ∧
          c = ⟨g.movedPort e inner c'.source, g.movedPort e inner c'.target⟩) ∨
        ∃ c' ∈ inner.connections,
          c = ⟨g.copiedPort e inner c'.source, g.copiedPort e inner c'.target⟩ := by
  constructor
  · intro hmem
    obtain ⟨s, t⟩ := c
    rcases (mem_connections_unfold h he hk).1 hmem with
      ((⟨hc, hs, ht⟩ | ⟨⟨c, hc, rfl, rfl⟩, -⟩) | ⟨⟨a, ha, hc, rfl⟩, hu, -⟩)
        | ⟨⟨b, hb, hc, rfl⟩, -, hd⟩
    · refine .inl ⟨_, hc, fun hself => hs hself.1, ?_⟩
      rw [movedPort_source h he hk hc hs, movedPort_target h he hk hc ht]
    · exact .inr ⟨c, hc, rfl⟩
    · have hs : s ∉ e.outputIds := fun hs => isOutputPort_unfolding_old h he hs hu
      refine .inl ⟨_, hc, fun hself => hs hself.1, ?_⟩
      rw [movedPort_source h he hk hc hs]
    · have ht : t ∉ e.inputIds := fun ht => isInputPort_unfolding_old h he ht hd
      refine .inl ⟨_, hc, fun hself => ht hself.2, ?_⟩
      rw [movedPort_target h he hk hc ht]
  · intro hmem
    rcases hmem with ⟨c', hc, hself, rfl⟩ | ⟨c', hc, rfl⟩
    · exact moved_mem_unfold h he hk hc hself
    · exact copied_mem_unfold h he hk hc

/-! ## Parts that feed themselves -/

/-- A port is at one copy, which is the copy of one element. -/
theorem copy_eq_of_port {x' y' : Element} (hxy : (x, y) ∈ g.copies e inner)
    (hxy' : (x', y') ∈ g.copies e inner) (hp : p ∈ y.portIds) (hp' : p ∈ y'.portIds) :
    x = x' ∧ y = y' := by
  obtain ⟨-, -, -, hy⟩ := mem_of_mem_copies h he hk hxy
  obtain ⟨-, -, -, hy'⟩ := mem_of_mem_copies h he hk hxy'
  obtain rfl := (unfold_wellFormed h he hk).coherent.eq_of_port hy hy' hp hp'
  exact ⟨eq_of_copy_eq h he hk hxy hxy', rfl⟩

/-- The entries and exits are at no part. -/
theorem not_mem_part_of_end (hxy : (x, y) ∈ g.copies e inner) (hx : x.isFlowPart = false)
    (hp : p ∈ y.portIds) (hz : z ∈ (g.unfold e inner).elements) (hzp : z.isFlowPart = true) :
    p ∉ z.portIds := by
  intro hpz
  obtain ⟨-, -, -, hy⟩ := mem_of_mem_copies h he hk hxy
  obtain rfl := (unfold_wellFormed h he hk).coherent.eq_of_port hy hz hp hpz
  rw [isFlowPart_copy h he hk hxy, hx] at hzp
  cases hzp

omit hk in
/-- What has a port that was there was there. -/
theorem mem_of_old_port (hx : x ∈ g.elements) (hp : p ∈ x.portIds)
    (hz : z ∈ (g.unfold e inner).elements) (hpz : p ∈ z.portIds) : z ∈ g.elements := by
  rcases (mem_elements_unfold h he).1 hz with ⟨hz, -⟩ | ⟨w, hwz⟩
  · exact hz
  · exact absurd hpz (not_mem_copy h he hx hp hwz)

/-- An end of a connection that is at a part after the replacement was at that part before. -/
theorem mem_outputIds_of_movedPort (hc : c ∈ g.connections)
    (hz : z ∈ (g.unfold e inner).elements) (hzp : z.isFlowPart = true)
    (hs : g.movedPort e inner c.source ∈ z.outputIds) :
    z ∈ g.elements ∧ c.source ∈ z.outputIds := by
  by_cases hse : c.source ∈ e.outputIds
  · obtain ⟨x, y, hxy, hxo, hport⟩ := movedPort_mem_outputIds h he hk hse
    have hx : x.isFlowPart = false := by
      rw [Element.isFlowPart, isOutput_iff.1 hxo]
      rfl
    exact absurd (Element.mem_portIds.2 (.inr hs)) (not_mem_part_of_end h he hk hxy hx
      (Element.mem_portIds.2 (.inr hport)) hz hzp)
  · rw [movedPort_source h he hk hc hse] at hs
    obtain ⟨x, hx, hxs⟩ := h.coherent.source_mem hc
    exact ⟨mem_of_old_port h he hx (Element.mem_portIds.2 (.inr hxs)) hz
      (Element.mem_portIds.2 (.inr hs)), hs⟩

theorem mem_inputIds_of_movedPort (hc : c ∈ g.connections)
    (hz : z ∈ (g.unfold e inner).elements) (hzp : z.isFlowPart = true)
    (ht : g.movedPort e inner c.target ∈ z.inputIds) :
    z ∈ g.elements ∧ c.target ∈ z.inputIds := by
  by_cases hte : c.target ∈ e.inputIds
  · obtain ⟨x, y, hxy, hxi, hport⟩ := movedPort_mem_inputIds h he hk hte
    have hx : x.isFlowPart = false := by
      rw [Element.isFlowPart, isInput_iff.1 hxi]
      rfl
    exact absurd (Element.mem_portIds.2 (.inl ht)) (not_mem_part_of_end h he hk hxy hx
      (Element.mem_portIds.2 (.inl hport)) hz hzp)
  · rw [movedPort_target h he hk hc hte] at ht
    obtain ⟨x, hx, hxt⟩ := h.coherent.target_mem hc
    exact ⟨mem_of_old_port h he hx (Element.mem_portIds.2 (.inl hxt)) hz
      (Element.mem_portIds.2 (.inl ht)), ht⟩

/-- A connection of the graph feeds a part by itself after the replacement if it did before, at
another part. -/
theorem selfFeeds_moved (hc : c ∈ g.connections)
    (hself : ¬ (c.source ∈ e.outputIds ∧ c.target ∈ e.inputIds)) :
    (g.unfold e inner).selfFeeds
        ⟨g.movedPort e inner c.source, g.movedPort e inner c.target⟩ = g.selfFeeds c := by
  rw [Bool.eq_iff_iff, selfFeeds_iff, selfFeeds_iff]
  constructor
  · rintro ⟨z, hz, hzp, hs, ht⟩
    obtain ⟨hzg, hsz⟩ := mem_outputIds_of_movedPort h he hk hc hz hzp hs
    exact ⟨z, hzg, hzp, hsz, (mem_inputIds_of_movedPort h he hk hc hz hzp ht).2⟩
  · rintro ⟨z, hz, hzp, hs, ht⟩
    have hne : z ≠ e := by
      rintro rfl
      exact hself ⟨hs, ht⟩
    refine ⟨z, (mem_elements_unfold h he).2 (.inl ⟨hz, hne⟩), hzp, ?_, ?_⟩
    · rwa [movedPort_other h he hk hz hne (Element.mem_portIds.2 (.inr hs))]
    · rwa [movedPort_other h he hk hz hne (Element.mem_portIds.2 (.inl ht))]

theorem selfFeeds_copied (hc : c ∈ inner.connections) :
    (g.unfold e inner).selfFeeds
        ⟨g.copiedPort e inner c.source, g.copiedPort e inner c.target⟩ = inner.selfFeeds c := by
  obtain ⟨x, hx, hs⟩ := (h.inner he hk).coherent.source_mem hc
  obtain ⟨x', hx', ht⟩ := (h.inner he hk).coherent.target_mem hc
  obtain ⟨y, hxy⟩ := exists_copy (g := g) (e := e) hx
  obtain ⟨y', hxy'⟩ := exists_copy (g := g) (e := e) hx'
  have hsy := copiedPort_mem_outputIds h he hk hxy hs
  have hty := copiedPort_mem_inputIds h he hk hxy' ht
  rw [Bool.eq_iff_iff, selfFeeds_iff, selfFeeds_iff]
  constructor
  · rintro ⟨z, hz, hzp, hsz, htz⟩
    rcases (mem_elements_unfold h he).1 hz with ⟨hz, -⟩ | ⟨w, hwz⟩
    · exact absurd (Element.mem_portIds.2 (.inr hsy))
        (not_mem_copy h he hz (Element.mem_portIds.2 (.inr hsz)) hxy)
    · obtain ⟨rfl, rfl⟩ := copy_eq_of_port h he hk hxy hwz
        (Element.mem_portIds.2 (.inr hsy)) (Element.mem_portIds.2 (.inr hsz))
      obtain ⟨rfl, -⟩ := copy_eq_of_port h he hk hxy' hwz
        (Element.mem_portIds.2 (.inl hty)) (Element.mem_portIds.2 (.inl htz))
      rw [isFlowPart_copy h he hk hxy] at hzp
      exact ⟨_, hx, hzp, hs, ht⟩
  · rintro ⟨z, hz, hzp, hsz, htz⟩
    obtain ⟨w, hzw⟩ := exists_copy (g := g) (e := e) hz
    refine ⟨w, (mem_elements_unfold h he).2 (.inr ⟨z, hzw⟩), ?_, ?_, ?_⟩
    · rw [isFlowPart_copy h he hk hzw, hzp]
    · exact copiedPort_mem_outputIds h he hk hzw hsz
    · exact copiedPort_mem_inputIds h he hk hzw htz

/-! ## The wires -/

omit h he hk in
theorem mem_properWires {g : FlowGraph} {w : Spot × Spot} :
    w ∈ g.properWires ↔
      (∃ c ∈ g.connections, g.selfFeeds c = false ∧ w = (.here c.source, .here c.target)) ∨
        ∃ z ∈ g.elements, ∃ nested, z.kind = .flowPart nested ∧
          ∃ w' ∈ nested.properWires, w = (.under z.id w'.1, .under z.id w'.2) := by
  rw [properWires, mem_wiresWhere]
  simp only [Bool.not_eq_true', properWires]

theorem kind_copy {nested : FlowGraph} (hxy : (x, y) ∈ g.copies e inner) :
    y.kind = .flowPart nested ↔ x.kind = .flowPart nested := by
  obtain ⟨-, -, hy, -⟩ := mem_of_mem_copies h he hk hxy
  rw [show y.kind = (copyOf e.name x).kind from congrArg ElementDecl.kind hy, copyOf]
  cases x.kind <;> simp [ElementDecl.pseudo, ElementDecl.operator, ElementDecl.flowPart]

/-- A wire of the new graph was a wire before. -/
theorem exists_wire_of_unfold {w : Spot × Spot} (hmem : w ∈ (g.unfold e inner).properWires) :
    ∃ w' ∈ g.properWires, w = (g.relocate e inner w'.1, g.relocate e inner w'.2) := by
  rcases mem_properWires.1 hmem with ⟨c, hc, hself, rfl⟩ | ⟨z, hz, nested, hkz, v, hv, rfl⟩
  · rcases (mem_unfold h he hk).1 hc with ⟨c', hc', hne, rfl⟩ | ⟨c', hc', rfl⟩
    · rw [selfFeeds_moved h he hk hc' hne] at hself
      exact ⟨_, mem_properWires.2 (.inl ⟨c', hc', hself, rfl⟩), rfl⟩
    · rw [selfFeeds_copied h he hk hc'] at hself
      refine ⟨_, mem_properWires.2 (.inr ⟨e, he, inner, hk, _,
        mem_properWires.2 (.inl ⟨c', hc', hself, rfl⟩), rfl⟩), ?_⟩
      rw [relocate_under_here, relocate_under_here]
  · -- A part of the new graph was beside the part or in it, with the same wires inside.
    rcases (mem_elements_unfold h he).1 hz with ⟨hzg, hne⟩ | ⟨x, hxz⟩
    · have hunder := (relocate_other h he hk hzg hne).2
      refine ⟨_, mem_properWires.2 (.inr ⟨z, hzg, nested, hkz, v, hv, rfl⟩), ?_⟩
      rw [hunder, hunder]
    · have hunder := relocate_nested h he hk hxz
      have hx := (mem_of_mem_copies h he hk hxz).1
      refine ⟨_, mem_properWires.2 (.inr ⟨e, he, inner, hk, _, mem_properWires.2 (.inr ⟨x, hx,
        nested, (kind_copy h he hk hxz).1 hkz, v, hv, rfl⟩), rfl⟩), ?_⟩
      rw [hunder, hunder]

/-- A wire in the part is a wire of the new graph. -/
theorem nested_wire_mem_unfold {w : Spot × Spot} (hw : w ∈ inner.properWires) :
    (g.relocate e inner (.under e.id w.1), g.relocate e inner (.under e.id w.2))
      ∈ (g.unfold e inner).properWires := by
  rcases mem_properWires.1 hw with ⟨c, hc, hself, rfl⟩ | ⟨x, hx, nested, hkx, v, hv, rfl⟩
  · refine mem_properWires.2 (.inl ⟨_, copied_mem_unfold h he hk hc, ?_, ?_⟩)
    · rw [selfFeeds_copied h he hk hc, hself]
    · rw [relocate_under_here, relocate_under_here]
  · obtain ⟨y, hxy⟩ := exists_copy (g := g) (e := e) hx
    refine mem_properWires.2 (.inr ⟨y, (mem_elements_unfold h he).2 (.inr ⟨x, hxy⟩), nested,
      (kind_copy h he hk hxy).2 hkx, v, hv, ?_⟩)
    rw [relocate_nested h he hk hxy, relocate_nested h he hk hxy]

theorem wire_mem_unfold {w : Spot × Spot} (hw : w ∈ g.properWires) :
    (g.relocate e inner w.1, g.relocate e inner w.2) ∈ (g.unfold e inner).properWires := by
  rcases mem_properWires.1 hw with ⟨c, hc, hself, rfl⟩ | ⟨z, hz, nested, hkz, v, hv, rfl⟩
  · have hne : ¬ (c.source ∈ e.outputIds ∧ c.target ∈ e.inputIds) := by
      intro hboth
      have hfeeds : g.selfFeeds c = true :=
        selfFeeds_iff.2 ⟨e, he, isFlowPart_iff.2 ⟨inner, hk⟩, hboth⟩
      rw [hself] at hfeeds
      cases hfeeds
    refine mem_properWires.2 (.inl ⟨_, moved_mem_unfold h he hk hc hne, ?_, rfl⟩)
    rw [selfFeeds_moved h he hk hc hne, hself]
  · by_cases heq : z = e
    · subst heq
      obtain rfl : inner = nested := ElementKind.flowPart.inj (hk.symm.trans hkz)
      exact nested_wire_mem_unfold h hz hk hv
    · have hunder := (relocate_other h he hk hz heq).2
      refine mem_properWires.2 (.inr ⟨z, (mem_elements_unfold h he).2 (.inl ⟨hz, heq⟩), nested,
        hkz, v, hv, ?_⟩)
      rw [hunder, hunder]

/-- Replacing a part moves the ends of the wires and nothing else, as long as the part does not feed
itself by them. -/
theorem mem_properWires_unfold {s t : Spot} :
    (s, t) ∈ (g.unfold e inner).properWires ↔
      ∃ w ∈ g.properWires, g.relocate e inner w.1 = s ∧ g.relocate e inner w.2 = t := by
  constructor
  · intro hmem
    obtain ⟨w, hw, heq⟩ := exists_wire_of_unfold h he hk hmem
    obtain ⟨rfl, rfl⟩ := Prod.mk.inj heq
    exact ⟨w, hw, rfl, rfl⟩
  · intro hmem
    obtain ⟨w, hw, rfl, rfl⟩ := hmem
    exact wire_mem_unfold h he hk hw

end Part

end FlowGraph
end FlowPlan
