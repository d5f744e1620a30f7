import FlowPlan.Proofs.Carrying
import FlowPlan.Proofs.Inlining
import FlowPlan.Proofs.Levels

/-!
What legal means.

`isLegal_iff` reads the check of a graph off the graph itself: ports and names on every level, and
no way along wires and through units that comes back to where it began.  The check looks for cycles
in the flattened graph, so the wires are those that flattening keeps.  A way that needs a part to
feed itself is not found; `loopThroughPart` has one.
-/

namespace FlowPlan

open Relation

namespace Legality

/-! ## Ports and names -/

theorem firstRepeated_eq_none_iff {seen names : List String} :
    firstRepeated seen names = none ↔ names.Nodup ∧ ∀ n ∈ names, n ∉ seen := by
  induction names generalizing seen with
  | nil => simp [firstRepeated]
  | cons n ns ih =>
    rw [firstRepeated]
    split
    case isTrue hn => simp [hn]
    case isFalse hn =>
      rw [ih, List.nodup_cons, List.forall_mem_cons]
      simp only [List.mem_cons, not_or]
      constructor
      · rintro ⟨hnodup, hsep⟩
        exact ⟨⟨fun hmem => (hsep n hmem).1 rfl, hnodup⟩, hn, fun m hm => (hsep m hm).2⟩
      · rintro ⟨⟨hnot, hnodup⟩, -, hsep⟩
        exact ⟨hnodup, fun m hm => ⟨fun heq => hnot (heq ▸ hm), hsep m hm⟩⟩

theorem repeated?_eq_none_iff {names : List String} : repeated? names = none ↔ names.Nodup := by
  rw [repeated?, firstRepeated_eq_none_iff]
  exact and_iff_left fun _ _ => List.not_mem_nil

end Legality

namespace FlowGraph

variable {g k : FlowGraph}

/-- Every mandatory port has a connection. -/
def IsConnected (g : FlowGraph) : Prop :=
  ∀ x ∈ g.elements, ∀ p ∈ x.ports, p.optional = false →
    ∃ c ∈ g.connections, c.source = p.id ∨ c.target = p.id

/-- The inputs of a flow differ in their names, and so do the outputs. -/
def HasDistinctEnds (g : FlowGraph) : Prop :=
  ((g.elements.filter (·.isInput)).map (·.name)).Nodup ∧
    ((g.elements.filter (·.isOutput)).map (·.name)).Nodup

/-- The flow is the graph or that of a part in it, at some depth. -/
inductive Holds : FlowGraph → FlowGraph → Prop
  | itself (g : FlowGraph) : Holds g g
  | inPart {g inner k : FlowGraph} {e : Element} (he : e ∈ g.elements)
      (hk : e.kind = .flowPart inner) (h : Holds inner k) : Holds g k

/-- The ports of a flow are connected, and those of its parts have names of their own. -/
structure IsSoundLevel (g : FlowGraph) : Prop where
  connected : g.IsConnected
  distinct : ∀ e ∈ g.elements, ∀ inner, e.kind = .flowPart inner → inner.HasDistinctEnds

theorem portFaults_eq_nil_iff {ref : ElementRef} {e : Element} :
    Legality.portFaults g ref e = [] ↔ ∀ p ∈ e.ports, p.optional = false →
      ∃ c ∈ g.connections, c.source = p.id ∨ c.target = p.id := by
  simp [Legality.portFaults, isConnected, or_iff_not_imp_left]

/-- The ports of a part have the names of what its flow exposes. -/
theorem Coherent.names_of_flowPart (h : g.Coherent) {e : Element} (he : e ∈ g.elements)
    {inner : FlowGraph} (hk : e.kind = .flowPart inner) :
    e.inputs.map (·.name) = inner.exposedInputs.map (·.name) ∧
      e.outputs.map (·.name) = inner.exposedOutputs.map (·.name) := by
  have hshape := h.shaped e he
  rw [Element.Shaped, hk] at hshape
  obtain ⟨-, hin, hout⟩ := hshape
  rw [← hin, ← hout, decls, decls, List.map_map, List.map_map]
  exact ⟨rfl, rfl⟩

theorem names_exposed (g : FlowGraph) :
    g.exposedInputs.map (·.name) = (g.elements.filter (·.isInput)).map (·.name) ∧
      g.exposedOutputs.map (·.name) = (g.elements.filter (·.isOutput)).map (·.name) := by
  rw [exposedInputs, exposedOutputs, List.map_map, List.map_map]
  exact ⟨rfl, rfl⟩

theorem partFaults_eq_nil_iff (h : g.Coherent) {e : Element} (he : e ∈ g.elements)
    {inner : FlowGraph} (hk : e.kind = .flowPart inner) (ref : ElementRef) :
    Legality.partFaults ref e inner = [] ↔ inner.HasDistinctEnds := by
  obtain ⟨hins, houts⟩ := h.names_of_flowPart he hk
  rw [Legality.partFaults, if_neg (by simp [hins, houts]), HasDistinctEnds,
    ← inner.names_exposed.1, ← inner.names_exposed.2,
    ← Legality.repeated?_eq_none_iff, ← Legality.repeated?_eq_none_iff, ← Option.or_eq_none_iff]
  cases (Legality.repeated? _).or (Legality.repeated? _) <;> simp

theorem structureFaults_eq (path : String) (g : FlowGraph) :
    Legality.structureFaults path g = g.elements.flatMap fun e =>
      Legality.portFaults g { id := e.id, name := path ++ e.name } e ++
        match e.kind with
        | .flowPart inner =>
          Legality.partFaults { id := e.id, name := path ++ e.name } e inner ++
            Legality.structureFaults (path ++ e.name ++ ".") inner
        | _ => [] := by
  rw [Legality.structureFaults]
  conv => rhs; rw [← List.attach_map_subtype_val g.elements, List.flatMap_map]
  refine List.flatMap_congr fun ⟨e, he⟩ _ => ?_
  obtain ⟨_, _, kind, _, _, _⟩ := e
  cases kind <;> rfl

theorem structureFaults_eq_nil_iff (h : g.WellFormed) (path : String) :
    Legality.structureFaults path g = [] ↔ ∀ k, g.Holds k → k.IsSoundLevel := by
  -- On the nesting; the path only goes into the names, and it grows on the way down.
  induction h generalizing path with
  | @intro g hg hinner ih =>
    rw [structureFaults_eq, List.flatMap_eq_nil_iff]
    constructor
    · intro hnil k hhold
      cases hhold with
      | itself =>
        refine ⟨fun x hx => portFaults_eq_nil_iff.1 (List.append_eq_nil_iff.1 (hnil x hx)).1, ?_⟩
        intro e he inner hk
        have hpart := (List.append_eq_nil_iff.1 (hnil e he)).2
        rw [hk] at hpart
        exact (partFaults_eq_nil_iff hg he hk _).1 (List.append_eq_nil_iff.1 hpart).1
      | inPart he hk hhold =>
        have hpart := (List.append_eq_nil_iff.1 (hnil _ he)).2
        rw [hk] at hpart
        exact (ih _ he _ hk _).1 (List.append_eq_nil_iff.1 hpart).2 k hhold
    · intro hsound e he
      have hlevel := hsound g (.itself g)
      rw [List.append_eq_nil_iff]
      refine ⟨portFaults_eq_nil_iff.2 (hlevel.connected e he), ?_⟩
      split
      case h_1 inner hk =>
        rw [List.append_eq_nil_iff]
        exact ⟨(partFaults_eq_nil_iff hg he hk _).2 (hlevel.distinct e he inner hk),
          (ih e he inner hk _).2 fun k hhold => hsound k (.inPart he hk hhold)⟩
      case h_2 => rfl

/-! ## Cycles of elements and of hops -/

/-- What an element feeds in several steps is reached by hops, from an output to an input. -/
theorem exists_hops (h : g.Coherent) {i j : ElementId}
    (hpath : TransGen (fun i j => j ∈ g.successors i) i j) :
    ∃ x ∈ g.elements, x.id = i ∧ ∃ y ∈ g.elements, y.id = j ∧
      ∃ u ∈ x.outputIds, ∃ d ∈ y.inputIds, TransGen (g.Hop fun _ => True) u d := by
  induction hpath with
  | single hj =>
    obtain ⟨x, hx, rfl⟩ := exists_of_mem_successors hj
    obtain ⟨y, hy, rfl, c, hc, hs, ht⟩ := (h.mem_successors hx).1 hj
    exact ⟨x, hx, rfl, y, hy, rfl, _, hs, _, ht, .single (.along hc)⟩
  | tail _ hj ih =>
    obtain ⟨x, hx, rfl, y, hy, rfl, u, hu, d, hd, hhops⟩ := ih
    obtain ⟨z, hz, rfl, c, hc, hs, ht⟩ := (h.mem_successors hy).1 hj
    exact ⟨x, hx, rfl, z, hz, rfl, u, hu, _, ht,
      (hhops.tail (.inside hy trivial hd hs)).tail (.along hc)⟩

/-- An input port at the level of its element, an output port right above. -/
def portLevel (g : FlowGraph) (level : ElementId → Nat) (p : PortId) : Nat :=
  2 * level ((g.ownerId? p).getD 0) + if g.isOutputPort p then 1 else 0

theorem portLevel_input (h : g.Coherent) (level : ElementId → Nat) {x : Element} {p : PortId}
    (hx : x ∈ g.elements) (hp : p ∈ x.inputIds) : g.portLevel level p = 2 * level x.id := by
  have hside : ¬ g.isOutputPort p = true := by
    rw [isOutputPort_iff]
    exact fun ⟨y, hy, hpy⟩ => h.not_mem_outputIds hx hy hp hpy
  rw [portLevel, h.ownerId?_of_input hx hp, if_neg hside]
  rfl

theorem portLevel_output (h : g.Coherent) (level : ElementId → Nat) {x : Element} {p : PortId}
    (hx : x ∈ g.elements) (hp : p ∈ x.outputIds) : g.portLevel level p = 2 * level x.id + 1 := by
  rw [portLevel, h.ownerId?_of_output hx hp, if_pos (isOutputPort_iff.2 ⟨x, hx, hp⟩)]
  rfl

theorem portLevel_lt_of_hop (h : g.Coherent) {level : ElementId → Nat} (hl : g.IsLevelling level)
    {p q : PortId} (hhop : g.Hop (fun _ => True) p q) :
    g.portLevel level p < g.portLevel level q := by
  cases hhop with
  | along hc =>
    obtain ⟨x, hx, hs⟩ := h.source_mem hc
    obtain ⟨y, hy, ht⟩ := h.target_mem hc
    rw [portLevel_output h level hx hs, portLevel_input h level hy ht]
    have hlt := hl x hx y hy ⟨_, hc, hs, ht⟩
    omega
  | inside he _ ha hb =>
    rw [portLevel_input h level he ha, portLevel_output h level he hb]
    omega

theorem cycles_eq_nil_iff_hops (h : g.Coherent) :
    g.cycles = [] ↔ ∀ p, ¬ TransGen (g.Hop fun _ => True) p p := by
  constructor
  · intro hnil p hpath
    obtain ⟨level, hl⟩ := exists_levelling h hnil
    have hlt : TransGen (· < ·) (g.portLevel level p) (g.portLevel level p) :=
      TransGen.lift (g.portLevel level) (fun _ _ => portLevel_lt_of_hop h hl) _ _ hpath
    rw [transGen_eq_self] at hlt
    exact Nat.lt_irrefl _ hlt
  · intro hnone
    rw [cycles_eq_nil_iff h]
    intro i hpath
    obtain ⟨x, hx, hxi, y, hy, hyi, u, hu, d, hd, hhops⟩ := exists_hops h hpath
    obtain rfl := h.eq_of_id_eq hx hy (hxi.trans hyi.symm)
    exact hnone u (hhops.tail (.inside hx trivial hd hu))

/-! ## Ways through the net -/

/-- From one port to another, along one of some wires or through a unit. -/
def Leads (g : FlowGraph) (wires : List (Spot × Spot)) (s t : Spot) : Prop :=
  (s, t) ∈ wires ∨ ∃ u ∈ g.units, s ∈ u.ins ∧ t ∈ u.outs

theorem mem_unitPorts {s : Spot} : s ∈ g.unitPorts ↔ ∃ u ∈ g.units, s ∈ u.ins ∨ s ∈ u.outs := by
  simp [unitPorts, NetUnit.ports]

theorem Leads.mem_unitPorts (h : g.WellFormed) {s t : Spot} (hl : g.Leads g.properWires s t) :
    s ∈ g.unitPorts ∧ t ∈ g.unitPorts := by
  rcases hl with hw | ⟨u, hu, hs, ht⟩
  · obtain ⟨⟨u, hu, hs⟩, v, hv, ht⟩ := exists_units_of_wire h _ hw
    exact ⟨FlowGraph.mem_unitPorts.2 ⟨u, hu, .inr hs⟩, FlowGraph.mem_unitPorts.2 ⟨v, hv, .inl ht⟩⟩
  · exact ⟨FlowGraph.mem_unitPorts.2 ⟨u, hu, .inl hs⟩, FlowGraph.mem_unitPorts.2 ⟨u, hu, .inr ht⟩⟩

theorem hop_flatten_iff (h : g.WellFormed) {p q : PortId} :
    g.flatten.1.Hop (fun _ => True) p q ↔
      ∃ s t, g.Leads g.properWires s t ∧ g.place s = p ∧ g.place t = q := by
  constructor
  · intro hhop
    cases hhop with
    | along hc =>
      obtain ⟨⟨s, t⟩, hw, heq⟩ := (connections_flatten h).1 hc
      obtain ⟨rfl, rfl⟩ := Connection.mk.inj heq
      exact ⟨s, t, .inl hw, rfl, rfl⟩
    | @inside e he _ ha hb =>
      have hmem : e.unit ∈ g.units.map (NetUnit.map g.place) :=
        (units_flatten h).mem_iff.1 (List.mem_map.2 ⟨e, he, rfl⟩)
      obtain ⟨u, hu, heq⟩ := List.mem_map.1 hmem
      have ha : p ∈ e.unit.ins := ha
      have hb : q ∈ e.unit.outs := hb
      rw [← heq] at ha hb
      obtain ⟨s, hs, rfl⟩ := List.mem_map.1 ha
      obtain ⟨t, ht, rfl⟩ := List.mem_map.1 hb
      exact ⟨s, t, .inr ⟨u, hu, hs, ht⟩, rfl, rfl⟩
  · rintro ⟨s, t, hw | ⟨u, hu, hs, ht⟩, rfl, rfl⟩
    · exact .along ((connections_flatten h).2 ⟨_, hw, rfl⟩)
    · obtain ⟨e, he, heq⟩ := List.mem_map.1
        ((units_flatten h).mem_iff.2 (List.mem_map.2 ⟨u, hu, rfl⟩))
      have hins : e.inputIds = u.ins.map g.place := congrArg NetUnit.ins heq
      have houts : e.outputIds = u.outs.map g.place := congrArg NetUnit.outs heq
      refine .inside he trivial ?_ ?_
      · rw [hins]
        exact List.mem_map.2 ⟨s, hs, rfl⟩
      · rw [houts]
        exact List.mem_map.2 ⟨t, ht, rfl⟩

/-- A way in the flat graph can be followed in the net. -/
theorem exists_way (h : g.WellFormed) {s : Spot} (hs : s ∈ g.unitPorts) {q : PortId}
    (hpath : TransGen (g.flatten.1.Hop fun _ => True) (g.place s) q) :
    ∃ t ∈ g.unitPorts, g.place t = q ∧ TransGen (g.Leads g.properWires) s t := by
  induction hpath with
  | single hhop =>
    obtain ⟨s', t, hl, hs', rfl⟩ := (hop_flatten_iff h).1 hhop
    obtain ⟨hmem, ht⟩ := hl.mem_unitPorts h
    obtain rfl := place_injective h s' hmem s hs hs'
    exact ⟨t, ht, rfl, .single hl⟩
  | tail _ hhop ih =>
    obtain ⟨r, hr, rfl, hway⟩ := ih
    -- The wire or unit of this hop begins where the way has come to, since no two ports become one.
    obtain ⟨r', t, hl, hr', rfl⟩ := (hop_flatten_iff h).1 hhop
    obtain ⟨hmem, ht⟩ := hl.mem_unitPorts h
    obtain rfl := place_injective h r' hmem r hr hr'
    exact ⟨t, ht, rfl, hway.tail hl⟩

theorem cycles_flatten_eq_nil_iff (h : g.WellFormed) :
    g.flatten.1.cycles = [] ↔ ∀ s, ¬ TransGen (g.Leads g.properWires) s s := by
  rw [cycles_eq_nil_iff_hops (flatten_wellFormed h).coherent]
  constructor
  · intro hnone s hway
    have hhop : ∀ s t, g.Leads g.properWires s t →
        g.flatten.1.Hop (fun _ => True) (g.place s) (g.place t) :=
      fun s t hl => (hop_flatten_iff h).2 ⟨s, t, hl, rfl, rfl⟩
    exact hnone _ (TransGen.lift g.place hhop _ _ hway)
  · intro hnone p hpath
    obtain ⟨q, hhop, -⟩ := TransGen.head'_iff.1 hpath
    obtain ⟨s, t, hl, rfl, -⟩ := (hop_flatten_iff h).1 hhop
    have hs := (hl.mem_unitPorts h).1
    obtain ⟨t, ht, heq, hway⟩ := exists_way h hs hpath
    obtain rfl := place_injective h t ht s hs heq
    exact hnone t hway

/-! ## Legal graphs -/

/-- A graph is legal exactly if all ports and names are as they should be and no way comes back to
where it began, along wires that flattening keeps. -/
theorem isLegal_iff (h : g.WellFormed) :
    g.isLegal = true ↔ (∀ k, g.Holds k → k.IsSoundLevel) ∧
      ∀ s, ¬ TransGen (g.Leads g.properWires) s s := by
  rw [isLegal, List.isEmpty_iff, faults, List.append_eq_nil_iff, structureFaults_eq_nil_iff h,
    Legality.cycleFaults, List.map_eq_nil_iff, cycles_flatten_eq_nil_iff h]

/-- A part that merges two streams, one of them its own output. -/
def loopThroughPart : FlowGraph :=
  let merge : FlowGraph :=
    assemble
      [.input "a" "Record", .input "b" "Record",
        .operator "m" { name := "m", kind := "confluent", resources := [] }
          [.plain "l" "Record", .plain "r" "Record"] [.plain "out" "Record"] .none,
        .output "o" "Record"]
      [(0, 2), (1, 3), (4, 5)]
  assemble [.input "src" "Record", .flowPart "p" merge, .output "dst" "Record"]
    [(0, 1), (3, 2), (3, 4)]

instance (g : FlowGraph) (wires : List (Spot × Spot)) (s t : Spot) :
    Decidable (g.Leads wires s t) :=
  inferInstanceAs (Decidable (_ ∨ _))

theorem loopThroughPart_wellFormed : loopThroughPart.WellFormed :=
  assemble_wellFormed _ (by simp [assemble_wellFormed])

set_option maxRecDepth 10000 in
/-- From the output of the part to its second input, through the merge, and out again. -/
theorem loopThroughPart_returns : loopThroughPart.isLegal = true ∧
    TransGen (loopThroughPart.Leads loopThroughPart.wires) (.here 3) (.here 3) := by
  have hway : ∀ w ∈
      [(Spot.here 3, Spot.here 2), (.here 2, .under 1 (.here 1)),
        (.under 1 (.here 1), .under 1 (.here 3)), (.under 1 (.here 3), .under 1 (.here 4)),
        (.under 1 (.here 4), .under 1 (.here 5)), (.under 1 (.here 5), .here 3)],
      loopThroughPart.Leads loopThroughPart.wires w.1 w.2 := by
    decide +kernel
  simp only [List.forall_mem_cons] at hway
  obtain ⟨h1, h2, h3, h4, h5, h6, -⟩ := hway
  exact ⟨by decide +kernel, .head h1 (.head h2 (.head h3 (.head h4 (.head h5 (.single h6)))))⟩

set_option maxRecDepth 10000 in
/-- Without the wire from the part to itself nothing comes back. -/
theorem loopThroughPart_no_return : loopThroughPart.WellFormed ∧
    ∀ s, ¬ TransGen (loopThroughPart.Leads loopThroughPart.properWires) s s :=
  ⟨loopThroughPart_wellFormed, ((isLegal_iff loopThroughPart_wellFormed).1 (by decide +kernel)).2⟩

end FlowGraph
end FlowPlan
