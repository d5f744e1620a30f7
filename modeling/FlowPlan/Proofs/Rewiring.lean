import FlowPlan.Proofs.Carrying

/-!
The three changes that normalization is made of, each with everything that it does.

`TakesOut` says what an element leaves behind that is bypassed, and `PutsIn` what a pseudo element
changes that is put in.  Both fix the elements and tell which connections there are, and
`changes_rewire` states them of the changes themselves.  Reachability is stated for any kind of
elements in between that includes the pseudo element, so it covers the paths through all elements as
well as those through pseudo elements alone.
-/

namespace FlowPlan
namespace FlowGraph

variable {g k : FlowGraph}

/-- The second graph is the first one without an element, whose neighbours are joined instead. -/
structure TakesOut (g : FlowGraph) (e : Element) (k : FlowGraph) : Prop where
  ids : k.ids = g.ids
  elements : k.elements = g.elements.filter (·.id ≠ e.id)
  connections : ∀ u d, ⟨u, d⟩ ∈ k.connections ↔
    (⟨u, d⟩ ∈ g.connections ∧ u ∉ e.portIds ∧ d ∉ e.portIds) ∨
      (∃ a ∈ e.inputIds, ⟨u, a⟩ ∈ g.connections) ∧ (∃ b ∈ e.outputIds, ⟨b, d⟩ ∈ g.connections) ∧
        u ∉ e.portIds ∧ d ∉ e.portIds
  once : k.connections.Nodup
  reach : e.isPseudo = true → ∀ via : Element → Prop, via e →
    ∀ x ∈ k.elements, ∀ y ∈ k.elements, ∀ p ∈ x.portIds, ∀ q ∈ y.portIds,
      (k.Reach via p q ↔ g.Reach via p q)

/-- The second graph is the first one with one more pseudo element, whose numbers are new. -/
structure PutsIn (g : FlowGraph) (x : Element) (k : FlowGraph) : Prop where
  elements : k.elements = g.elements ++ [x]
  kind : x.kind = .pseudo
  ports : x.inputIds = [g.entry] ∧ x.outputIds = [g.exit]
  fresh : ∀ y ∈ g.elements, y.id ≠ x.id ∧ g.entry ∉ y.portIds ∧ g.exit ∉ y.portIds
  once : k.connections.Nodup
  reach : ∀ via : Element → Prop, via x →
    ∀ y ∈ g.elements, ∀ z ∈ g.elements, ∀ p ∈ y.portIds, ∀ q ∈ z.portIds,
      (k.Reach via p q ↔ g.Reach via p q)

/-! ## Taking out -/

section Bypass

variable {e : Element}

/-- A source is never an input port and a target never an output port, so a connection touches an
element at the ports of the one side only. -/
theorem Coherent.source_mem_portIds_iff (h : g.Coherent) (he : e ∈ g.elements) {c : Connection}
    (hc : c ∈ g.connections) : c.source ∈ e.portIds ↔ c.source ∈ e.outputIds :=
  ⟨h.source_mem_outputIds hc he, fun hp => Element.mem_portIds.2 (.inr hp)⟩

theorem Coherent.target_mem_portIds_iff (h : g.Coherent) (he : e ∈ g.elements) {c : Connection}
    (hc : c ∈ g.connections) : c.target ∈ e.portIds ↔ c.target ∈ e.inputIds :=
  ⟨h.target_mem_inputIds hc he, fun hp => Element.mem_portIds.2 (.inl hp)⟩

theorem connections_bypass (h : g.Coherent) (he : e ∈ g.elements) (u d : PortId) :
    ⟨u, d⟩ ∈ (g.bypass e.id).connections ↔
      (⟨u, d⟩ ∈ g.connections ∧ u ∉ e.portIds ∧ d ∉ e.portIds) ∨
        (∃ a ∈ e.inputIds, ⟨u, a⟩ ∈ g.connections) ∧
          (∃ b ∈ e.outputIds, ⟨b, d⟩ ∈ g.connections) ∧ u ∉ e.portIds ∧ d ∉ e.portIds := by
  rw [mem_bypass h he, or_and_right, and_assoc]
  refine or_congr (and_congr_right fun hc => ?_)
    (and_congr_right fun ⟨a, _, hu⟩ => and_congr_right fun ⟨b, _, hd⟩ => ?_)
  · rw [h.source_mem_portIds_iff he hc, h.target_mem_portIds_iff he hc]
  · rw [h.source_mem_portIds_iff (c := ⟨u, a⟩) he hu, h.target_mem_portIds_iff (c := ⟨b, d⟩) he hd]

theorem elements_bypass (h : g.Coherent) (he : e ∈ g.elements) :
    (g.bypass e.id).elements = g.elements.filter (·.id ≠ e.id) := by
  rw [bypass, elements_connectAll, removeElement_eq h he]

theorem ids_connectAll (g : FlowGraph) (pairs : List (PortId × PortId)) :
    (g.connectAll pairs).ids = g.ids := by
  induction pairs generalizing g with
  | nil => rfl
  | cons pair pairs ih => exact (ih (g.connect pair.1 pair.2)).trans (ids_connect g _ _)

theorem bypass_takesOut (h : g.Coherent) (he : e ∈ g.elements) : TakesOut g e (g.bypass e.id) where
  ids := by rw [bypass, ids_connectAll, ids_removeElement h he]
  elements := elements_bypass h he
  connections := connections_bypass h he
  once := (bypass_coherent h he).connectedOnce
  reach := by
    intro hpseudo via hvia x hx y hy p hp q hq
    obtain ⟨a, b, hin, hout⟩ := Element.ports_of_isPseudo (h.shaped e he) hpseudo
    obtain ⟨hx, hxe⟩ := (mem_elements_bypass h he).1 hx
    obtain ⟨hy, hye⟩ := (mem_elements_bypass h he).1 hy
    exact reach_bypass h hvia he hin hout (h.port_ne he hin hout hx hxe hp)
      (h.port_ne he hin hout hy hye hq)

end Bypass

/-! ## Putting in -/

/-- The numbers of the next pseudo element are not in use. -/
theorem Coherent.freshPseudo_fresh (h : g.Coherent) (type : String) (boundary : Boundary) :
    ∀ y ∈ g.elements, y.id ≠ (g.freshPseudo type boundary).id ∧ g.entry ∉ y.portIds ∧
      g.exit ∉ y.portIds := by
  intro y hy
  refine ⟨Nat.ne_of_lt (h.idsBelow y hy), fun hp => ?_, fun hp => ?_⟩
  · exact Nat.lt_irrefl _ (h.port_lt hy hp)
  · exact Nat.lt_irrefl _ (lt_exit (h.port_lt hy hp))

theorem insertPseudoOn_putsIn (h : g.Coherent) {c : Connection} (hc : c ∈ g.connections)
    (boundary : Boundary) :
    PutsIn g (g.freshPseudo (g.portType c.source) boundary) (g.insertPseudoOn c boundary) where
  elements := elements_insertPseudoOn g c boundary
  kind := rfl
  ports := ⟨rfl, rfl⟩
  fresh := h.freshPseudo_fresh _ boundary
  once := (insertPseudoOn_coherent h c boundary).connectedOnce
  reach := fun _ hvia _ hy _ hz _ hp _ hq =>
    reach_insertPseudoOn h hc hvia (h.port_lt hy hp) (h.port_lt hz hq)

theorem insertPseudoAfter_putsIn (h : g.Coherent) {p : PortId} (hp : g.isOutputPort p = true)
    (boundary : Boundary) :
    PutsIn g (g.freshPseudo (g.portType p) boundary) (g.insertPseudoAfter p boundary) where
  elements := elements_insertPseudoAfter g p boundary
  kind := rfl
  ports := ⟨rfl, rfl⟩
  fresh := h.freshPseudo_fresh _ boundary
  once := (insertPseudoAfter_coherent h p boundary).connectedOnce
  reach := fun _ hvia _ hy _ hz _ hp' _ hq =>
    reach_insertPseudoAfter h hp hvia (h.port_lt hy hp') (h.port_lt hz hq)

/-! ## All three -/

/-- Bypassing an element joins what fed it with what it fed.  A pseudo element on a connection takes
the place of the connection, and one behind a port takes over all connections of the port.  Nothing
else changes. -/
theorem changes_rewire (h : g.WellFormed) :
    (∀ e ∈ g.elements, TakesOut g e (g.bypass e.id)) ∧
      (∀ c ∈ g.connections, ∀ boundary,
        PutsIn g (g.freshPseudo (g.portType c.source) boundary) (g.insertPseudoOn c boundary) ∧
          ∀ c', c' ∈ (g.insertPseudoOn c boundary).connections ↔
            (c' ∈ g.connections ∧ c' ≠ c) ∨ c' = ⟨c.source, g.entry⟩ ∨ c' = ⟨g.exit, c.target⟩) ∧
      ∀ p, g.isOutputPort p = true → ∀ boundary,
        PutsIn g (g.freshPseudo (g.portType p) boundary) (g.insertPseudoAfter p boundary) ∧
          ∀ c, c ∈ (g.insertPseudoAfter p boundary).connections ↔
            (c ∈ g.connections ∧ c.source ≠ p) ∨ c = ⟨p, g.entry⟩ ∨
              (c.source = g.exit ∧ ⟨p, c.target⟩ ∈ g.connections) := by
  have hg := h.coherent
  refine ⟨fun e he => bypass_takesOut hg he, fun c hc boundary => ?_, fun p hp boundary => ?_⟩
  · exact ⟨insertPseudoOn_putsIn hg hc boundary, fun _ => mem_insertPseudoOn hg hc boundary⟩
  · exact ⟨insertPseudoAfter_putsIn hg hp boundary,
      fun _ => mem_insertPseudoAfter hg hp boundary⟩

/-- A pseudo element that feeds itself and both sides of a join, one of which is also fed past
it. -/
def knot : FlowGraph :=
  assemble
    [.input "in" "Record", .pseudo "id" "Record" .none,
      .operator "join" { name := "join", kind := "confluent", resources := [] }
        [.plain "l" "Record", .plain "r" "Record"] [.plain "out" "Record"] .none,
      .output "out" "Record"]
    [(0, 1), (0, 3), (2, 1), (2, 3), (2, 4), (5, 6)]

theorem knot_rewired :
    knot.WellFormed ∧
      (∃ e ∈ knot.elements, e.isPseudo = true ∧ TakesOut knot e (knot.bypass e.id) ∧
        (knot.bypass e.id).connections = [⟨0, 3⟩, ⟨5, 6⟩, ⟨0, 4⟩]) ∧
      ((⟨2, 1⟩ : Connection) ∈ knot.connections ∧
        PutsIn knot (knot.freshPseudo (knot.portType 2) .stage)
          (knot.insertPseudoOn ⟨2, 1⟩ .stage)) ∧
      knot.isOutputPort 2 = true ∧
        PutsIn knot (knot.freshPseudo (knot.portType 2) .stage)
          (knot.insertPseudoAfter 2 .stage) := by
  have hwf : knot.WellFormed := assemble_wellFormed _ (by simp)
  obtain ⟨hout, hon, hafter⟩ := changes_rewire hwf
  obtain ⟨e, hfind⟩ : ∃ e, knot.element? 1 = some e := Option.isSome_iff_exists.1 (by decide)
  obtain ⟨he, hid⟩ := mem_of_element?_eq_some hfind
  have hpseudo : e.isPseudo = true := by
    have hall : (knot.element? 1).all (·.isPseudo) = true := by decide
    rwa [hfind, Option.all_some] at hall
  have hc : (⟨2, 1⟩ : Connection) ∈ knot.connections := by decide
  have hp : knot.isOutputPort 2 = true := by decide
  exact ⟨hwf, ⟨e, he, hpseudo, hout e he, by rw [hid]; decide +kernel⟩,
    ⟨hc, (hon _ hc .stage).1⟩, hp, (hafter 2 hp .stage).1⟩

end FlowGraph
end FlowPlan
