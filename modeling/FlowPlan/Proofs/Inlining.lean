import FlowPlan.Legality
import FlowPlan.Proofs.WireUnfolding

/-!
Flattening keeps the net of a graph.

`flatten_keeps_connections` says what becomes of it: the units are the elements of the flat graph,
under one-to-one names for their ports, and its connections are the wires, except those by which a
part feeds itself.  The exception is there because the connections of a part are looked up before it
is taken out and made again after, when a port of the part that is the other end is gone; `feedback`
is the smallest case.
-/

namespace FlowPlan
namespace FlowGraph

variable {g k : FlowGraph} {f : Spot → Spot}

/-! ## Nets of flat graphs -/

theorem units_of_isFlat (h : g.isFlat = true) : g.units = g.elements.map (·.unit.map .here) := by
  rw [units_eq, List.map_eq_flatMap]
  exact List.flatMap_congr fun x hx => unitsOf_of_not_isFlowPart (isFlat_iff.1 h x hx)

theorem mem_properWires_of_isFlat (h : g.isFlat = true) {w : Spot × Spot} :
    w ∈ g.properWires ↔ ∃ c ∈ g.connections, w = (.here c.source, .here c.target) := by
  have hpart : ∀ z ∈ g.elements, ¬ z.isFlowPart = true := fun z hz => by simp [isFlat_iff.1 h z hz]
  rw [mem_properWires]
  constructor
  · rintro (⟨c, hc, -, rfl⟩ | ⟨z, hz, nested, hk, -⟩)
    · exact ⟨c, hc, rfl⟩
    · exact absurd (isFlowPart_iff.2 ⟨nested, hk⟩) (hpart z hz)
  · rintro ⟨c, hc, rfl⟩
    refine .inl ⟨c, hc, ?_, rfl⟩
    rw [← Bool.not_eq_true, selfFeeds_iff]
    exact fun ⟨z, hz, hzp, _⟩ => hpart z hz hzp

theorem flatten_of_none (h : g.firstPart? = none) : g.flatten.1 = g := by
  rw [flatten]
  split
  case h_1 => rfl
  case h_2 heq => rw [h] at heq; cases heq

theorem flatten_of_some {e : Element} {inner : FlowGraph} (h : g.firstPart? = some (e, inner)) :
    g.flatten.1 = (g.unfold e inner).flatten.1 := by
  rw [flatten]
  split
  case h_1 heq => rw [h] at heq; cases heq
  case h_2 e' inner' heq =>
    obtain ⟨rfl, rfl⟩ := Prod.mk.inj (Option.some.inj (h.symm.trans heq))
    rfl

theorem placement_of_none (h : g.firstPart? = none) : g.placement = id := by
  rw [placement]
  split
  case h_1 => rfl
  case h_2 heq => rw [h] at heq; cases heq

theorem placement_of_some {e : Element} {inner : FlowGraph} (h : g.firstPart? = some (e, inner)) :
    g.placement = (g.unfold e inner).placement ∘ g.relocate e inner := by
  rw [placement]
  split
  case h_1 heq => rw [h] at heq; cases heq
  case h_2 e' inner' heq =>
    obtain ⟨rfl, rfl⟩ := Prod.mk.inj (Option.some.inj (h.symm.trans heq))
    rfl

theorem flatten_isFlat (g : FlowGraph) : g.flatten.1.isFlat = true := by
  cases hpart : g.firstPart? with
  | none =>
    rw [flatten_of_none hpart, isFlat_iff]
    intro x hx
    have hx := List.findSome?_eq_none_iff.1 hpart x hx
    unfold Element.isFlowPart
    cases hk : x.kind with
    | flowPart inner => simp [hk] at hx
    | _ => rfl
  | some part =>
    obtain ⟨he, hk⟩ := firstPart?_eq_some hpart
    rw [flatten_of_some hpart]
    exact flatten_isFlat (g.unfold part.1 part.2)
termination_by g.partCount
decreasing_by exact partCount_unfold_lt he hk

/-! ## Parts replaced one after the other -/

/-- One graph is the other with some parts replaced, and the ports go along the map. -/
structure Unfolds (f : Spot → Spot) (g k : FlowGraph) : Prop where
  units : k.units.Perm (g.units.map (NetUnit.map f))
  wires : ∀ s t, (s, t) ∈ k.properWires ↔ ∃ w ∈ g.properWires, f w.1 = s ∧ f w.2 = t
  kept : ∀ x ∈ g.elements, x.isFlowPart = false →
    x ∈ k.elements ∧ ∀ p ∈ x.portIds, f (.here p) = .here p

theorem Unfolds.refl (g : FlowGraph) : Unfolds id g g where
  units := by
    rw [show NetUnit.map (id : Spot → Spot) = id from funext NetUnit.map_id, List.map_id]
  wires := fun s t => by simp
  kept := fun x hx _ => ⟨hx, fun _ _ => rfl⟩

theorem Unfolds.trans {l : FlowGraph} {f' : Spot → Spot} (hgk : Unfolds f g k)
    (hkl : Unfolds f' k l) : Unfolds (f' ∘ f) g l where
  units := by
    refine hkl.units.trans ((hgk.units.map _).trans (List.Perm.of_eq ?_))
    rw [List.map_map]
    exact List.map_congr_left fun u _ => NetUnit.map_map f f' u
  wires := fun s t => by
    rw [hkl.wires]
    constructor
    · rintro ⟨⟨a, b⟩, hab, rfl, rfl⟩
      obtain ⟨w, hw, rfl, rfl⟩ := (hgk.wires a b).1 hab
      exact ⟨w, hw, rfl, rfl⟩
    · rintro ⟨⟨a, b⟩, hw, rfl, rfl⟩
      exact ⟨(f a, f b), (hgk.wires _ _).2 ⟨(a, b), hw, rfl, rfl⟩, rfl, rfl⟩
  kept := fun x hx hxp => by
    obtain ⟨hxk, hfix⟩ := hgk.kept x hx hxp
    obtain ⟨hxl, hfix'⟩ := hkl.kept x hxk hxp
    exact ⟨hxl, fun p hp => by rw [Function.comp_apply, hfix p hp, hfix' p hp]⟩

theorem unfold_unfolds {inner : FlowGraph} {e : Element} (h : g.WellFormed) (he : e ∈ g.elements)
    (hk : e.kind = .flowPart inner) : Unfolds (g.relocate e inner) g (g.unfold e inner) where
  units := units_unfold_perm h he hk
  wires := fun _ _ => mem_properWires_unfold h he hk
  kept := fun x hx hxp => by
    have hne : x ≠ e := by
      rintro rfl
      rw [isFlowPart_iff.2 ⟨inner, hk⟩] at hxp
      cases hxp
    exact ⟨(mem_elements_unfold h he).2 (.inl ⟨hx, hne⟩), (relocate_other h he hk hx hne).1⟩

theorem flatten_unfolds {g : FlowGraph} (h : g.WellFormed) :
    Unfolds g.placement g g.flatten.1 := by
  cases hpart : g.firstPart? with
  | none =>
    rw [flatten_of_none hpart, placement_of_none hpart]
    exact .refl g
  | some part =>
    obtain ⟨he, hk⟩ := firstPart?_eq_some hpart
    rw [flatten_of_some hpart, placement_of_some hpart]
    exact (unfold_unfolds h he hk).trans (flatten_unfolds (unfold_wellFormed h he hk))
termination_by g.partCount
decreasing_by exact partCount_unfold_lt he hk

/-! ## The flat graph -/

/-- The ports of the units. -/
def unitPorts (g : FlowGraph) : List Spot := g.units.flatMap (·.ports)

theorem units_flatten (h : g.WellFormed) :
    (g.flatten.1.elements.map (·.unit)).Perm (g.units.map (NetUnit.map g.place)) := by
  have hperm := (flatten_unfolds h).units
  rw [units_of_isFlat (flatten_isFlat g)] at hperm
  have hport := hperm.map (NetUnit.map Spot.port)
  rw [List.map_map, List.map_map] at hport
  have hback : ∀ u : NetUnit PortId, (u.map Spot.here).map Spot.port = u := fun u => by
    rw [NetUnit.map_map, show Spot.port ∘ Spot.here = id from rfl, NetUnit.map_id]
  have hflat : g.flatten.1.elements.map (NetUnit.map Spot.port ∘ fun x => x.unit.map Spot.here)
      = g.flatten.1.elements.map (·.unit) := List.map_congr_left fun x _ => hback x.unit
  have hplace : g.units.map (NetUnit.map Spot.port ∘ NetUnit.map g.placement)
      = g.units.map (NetUnit.map g.place) :=
    List.map_congr_left fun u _ => NetUnit.map_map _ _ u
  rwa [hflat, hplace] at hport

/-- No two ports end up as one. -/
theorem place_injective (h : g.WellFormed) :
    ∀ s ∈ g.unitPorts, ∀ t ∈ g.unitPorts, g.place s = g.place t → s = t := by
  -- The ports of the units become those of the flat graph, which are all different.
  have hn : (g.unitPorts.map g.place).Nodup := by
    have hports := (flatten_wellFormed h).coherent.portsOnce
    have hperm := (units_flatten h).flatMap_right NetUnit.ports
    rw [List.flatMap_map, List.flatMap_map] at hperm
    have hleft : (g.flatten.1.elements.flatMap fun x => x.unit.ports)
        = g.flatten.1.elements.flatMap (·.portIds) :=
      List.flatMap_congr fun x _ => (Element.portIds_eq x).symm
    rw [hleft] at hperm
    rw [unitPorts, List.map_flatMap]
    simpa only [NetUnit.ports_map] using hperm.nodup_iff.1 hports
  exact fun s hs t ht heq => List.inj_on_of_nodup_map hn hs ht heq

theorem connections_flatten (h : g.WellFormed) {c : Connection} :
    c ∈ g.flatten.1.connections ↔
      ∃ w ∈ g.properWires, c = ⟨g.place w.1, g.place w.2⟩ := by
  have hmem : c ∈ g.flatten.1.connections ↔
      (Spot.here c.source, Spot.here c.target) ∈ g.flatten.1.properWires := by
    rw [mem_properWires_of_isFlat (flatten_isFlat g)]
    constructor
    · exact fun hc => ⟨c, hc, rfl⟩
    · rintro ⟨⟨s, t⟩, hc, heq⟩
      obtain ⟨hs, ht⟩ := Prod.mk.inj heq
      obtain ⟨rfl⟩ : c.source = s := congrArg Spot.port hs
      obtain ⟨rfl⟩ : c.target = t := congrArg Spot.port ht
      exact hc
  rw [hmem, (flatten_unfolds h).wires]
  constructor
  · rintro ⟨w, hw, hs, ht⟩
    refine ⟨w, hw, ?_⟩
    rw [place, place, hs, ht]
    rfl
  · rintro ⟨w, hw, rfl⟩
    have hplaced := ((flatten_unfolds h).wires _ _).2 ⟨w, hw, rfl, rfl⟩
    obtain ⟨c, -, heq⟩ := (mem_properWires_of_isFlat (flatten_isFlat g)).1 hplaced
    obtain ⟨hs, ht⟩ := Prod.mk.inj heq
    refine ⟨w, hw, ?_, ?_⟩
    · show g.placement w.1 = .here (g.placement w.1).port
      rw [hs]
      rfl
    · show g.placement w.2 = .here (g.placement w.2).port
      rw [ht]
      rfl

/-! ## The ends of wires -/

theorem exists_mem_zip {α β : Type} {as : List α} {bs : List β} (hlen : as.length = bs.length) :
    (∀ a ∈ as, ∃ b, (a, b) ∈ as.zip bs) ∧ ∀ b ∈ bs, ∃ a, (a, b) ∈ as.zip bs := by
  constructor
  · intro a ha
    rw [← List.map_fst_zip (Nat.le_of_eq hlen)] at ha
    obtain ⟨⟨a, b⟩, hab, rfl⟩ := List.mem_map.1 ha
    exact ⟨b, hab⟩
  · intro b hb
    rw [← List.map_snd_zip (Nat.le_of_eq hlen.symm)] at hb
    obtain ⟨⟨a, b⟩, hab, rfl⟩ := List.mem_map.1 hb
    exact ⟨a, hab⟩

theorem mem_units {u : NetUnit Spot} : u ∈ g.units ↔ ∃ x ∈ g.elements, u ∈ unitsOf x := by
  rw [units_eq, List.mem_flatMap]

section Part

variable {e : Element} {inner : FlowGraph} (h : g.WellFormed) (he : e ∈ g.elements)
  (hk : e.kind = .flowPart inner)

include h he hk

/-- The unit of an end of the flow is joined to a port of the part. -/
theorem exists_unit_of_end {z : Element} (hz : z ∈ inner.elements)
    (hend : z.decl.isEnd = true) :
    (∀ q ∈ z.inputIds, ∃ u ∈ unitsOf e, Spot.under e.id (.here q) ∈ u.ins) ∧
      ∀ q ∈ z.outputIds, ∃ u ∈ unitsOf e, Spot.under e.id (.here q) ∈ u.outs := by
  rw [unitsOf_flowPart hk]
  have hshape := (h.inner he hk).coherent.shaped z hz
  have hend : (z.isInput || z.isOutput) = true := hend
  rw [Bool.or_eq_true] at hend
  rcases hend with hin | hout
  · obtain ⟨a, hza⟩ := (exists_mem_zip (length_exposed h he hk).1).1 z
      (List.mem_filter.2 ⟨hz, hin⟩)
    rw [inputIds_eq_nil hshape hin]
    refine ⟨by simp, fun q hq => ?_⟩
    exact ⟨_, List.mem_append_left _ (List.mem_append_left _ (List.mem_map.2 ⟨_, hza, rfl⟩)),
      List.mem_map.2 ⟨q, hq, rfl⟩⟩
  · obtain ⟨b, hzb⟩ := (exists_mem_zip (length_exposed h he hk).2).1 z
      (List.mem_filter.2 ⟨hz, hout⟩)
    rw [outputIds_eq_nil hshape hout]
    refine ⟨fun q hq => ?_, by simp⟩
    exact ⟨_, List.mem_append_left _ (List.mem_append_right _ (List.mem_map.2 ⟨_, hzb, rfl⟩)),
      List.mem_map.2 ⟨q, hq, rfl⟩⟩

/-- A port of a unit in a part is a port on the same side of a unit outside. -/
theorem exists_unit_of_part {u : NetUnit Spot} (hu : u ∈ inner.units) :
    (∀ s ∈ u.ins, ∃ u' ∈ unitsOf e, Spot.under e.id s ∈ u'.ins) ∧
      ∀ s ∈ u.outs, ∃ u' ∈ unitsOf e, Spot.under e.id s ∈ u'.outs := by
  by_cases hend : u.decl.isEnd = true
  · obtain ⟨z, hz, hu⟩ := mem_units.1 hu
    have hzp : z.isFlowPart = false := by
      rw [← Bool.not_eq_true, isFlowPart_iff]
      intro hpart
      obtain ⟨nested, hkz⟩ := hpart
      rw [unitsOf_flowPart hkz] at hu
      rw [isEnd_eq_false_of_mem_partUnits hu] at hend
      cases hend
    rw [unitsOf_of_not_isFlowPart hzp, List.mem_singleton] at hu
    subst hu
    obtain ⟨hins, houts⟩ := exists_unit_of_end h he hk hz hend
    constructor
    · intro s hs
      obtain ⟨q, hq, rfl⟩ := List.mem_map.1 hs
      exact hins q hq
    · intro s hs
      obtain ⟨q, hq, rfl⟩ := List.mem_map.1 hs
      exact houts q hq
  · rw [unitsOf_flowPart hk]
    have hmem : u.within e.name (.under e.id) ∈ partUnits e inner inner.units :=
      List.mem_append_right _ (List.mem_map.2 ⟨u, List.mem_filter.2 ⟨hu, by simpa using hend⟩, rfl⟩)
    exact ⟨fun s hs => ⟨_, hmem, List.mem_map.2 ⟨s, hs, rfl⟩⟩,
      fun s hs => ⟨_, hmem, List.mem_map.2 ⟨s, hs, rfl⟩⟩⟩

end Part

/-- Every port of an element is a port of a unit on the same side. -/
theorem exists_unit_of_port (h : g.WellFormed) {x : Element} (hx : x ∈ g.elements) :
    (∀ p ∈ x.inputIds, ∃ u ∈ g.units, Spot.here p ∈ u.ins) ∧
      ∀ p ∈ x.outputIds, ∃ u ∈ g.units, Spot.here p ∈ u.outs := by
  by_cases hxp : x.isFlowPart = true
  · obtain ⟨inner, hk⟩ := isFlowPart_iff.1 hxp
    have hunits : ∀ u ∈ partUnits x inner inner.units, u ∈ g.units := fun u hu =>
      mem_units.2 ⟨x, hx, by rwa [unitsOf_flowPart hk]⟩
    constructor
    · intro a ha
      obtain ⟨z, hza⟩ := (exists_mem_zip (length_exposed h hx hk).1).2 a ha
      exact ⟨_, hunits _ (List.mem_append_left _ (List.mem_append_left _
        (List.mem_map.2 ⟨_, hza, rfl⟩))), List.mem_singleton_self _⟩
    · intro b hb
      obtain ⟨z, hzb⟩ := (exists_mem_zip (length_exposed h hx hk).2).2 b hb
      exact ⟨_, hunits _ (List.mem_append_left _ (List.mem_append_right _
        (List.mem_map.2 ⟨_, hzb, rfl⟩))), List.mem_singleton_self _⟩
  · have hmem : x.unit.map Spot.here ∈ g.units := mem_units.2 ⟨x, hx, by
      rw [unitsOf_of_not_isFlowPart (by simpa using hxp)]
      exact List.mem_singleton_self _⟩
    exact ⟨fun p hp => ⟨_, hmem, List.mem_map.2 ⟨p, hp, rfl⟩⟩,
      fun p hp => ⟨_, hmem, List.mem_map.2 ⟨p, hp, rfl⟩⟩⟩

/-- A wire leads from an output of a unit to an input of a unit. -/
theorem exists_units_of_wire {keeps : FlowGraph → Connection → Bool} {g : FlowGraph}
    (h : g.WellFormed) : ∀ w ∈ wiresWhere keeps g,
      (∃ u ∈ g.units, w.1 ∈ u.outs) ∧ ∃ u ∈ g.units, w.2 ∈ u.ins := by
  induction h with
  | @intro g hg hinner ih =>
    have h : g.WellFormed := .intro hg hinner
    intro w hw
    rcases mem_wiresWhere.1 hw with ⟨c, hc, -, rfl⟩ | ⟨e, he, inner, hk, w', hw', rfl⟩
    · obtain ⟨x, hx, hs⟩ := hg.source_mem hc
      obtain ⟨y, hy, ht⟩ := hg.target_mem hc
      exact ⟨(exists_unit_of_port h hx).2 _ hs, (exists_unit_of_port h hy).1 _ ht⟩
    · obtain ⟨⟨u, hu, hs⟩, v, hv, ht⟩ := ih e he inner hk w' hw'
      obtain ⟨u', hu', hs'⟩ := (exists_unit_of_part h he hk hu).2 _ hs
      obtain ⟨v', hv', ht'⟩ := (exists_unit_of_part h he hk hv).1 _ ht
      exact ⟨⟨u', mem_units.2 ⟨e, he, hu'⟩, hs'⟩, v', mem_units.2 ⟨e, he, hv'⟩, ht'⟩

/-! ## Connections -/

/-- What the units are connected by is what they were connected by in the parts, except where a part
feeds itself; elements that are no parts stay what they are. -/
theorem flatten_keeps_connections (h : g.WellFormed) :
    (g.flatten.1.elements.map (·.unit)).Perm (g.units.map (NetUnit.map g.place)) ∧
      (∀ x ∈ g.elements, x.isFlowPart = false →
        x ∈ g.flatten.1.elements ∧ ∀ p ∈ x.portIds, g.place (.here p) = p) ∧
      (∀ s ∈ g.unitPorts, ∀ t ∈ g.unitPorts, g.place s = g.place t → s = t) ∧
      (∀ w ∈ g.wires, w.1 ∈ g.unitPorts ∧ w.2 ∈ g.unitPorts) ∧
      g.flatten.1.connections.Nodup ∧
      ∀ c, c ∈ g.flatten.1.connections ↔ ∃ w ∈ g.properWires, c = ⟨g.place w.1, g.place w.2⟩ := by
  refine ⟨units_flatten h, fun x hx hxp => ?_, place_injective h, fun w hw => ?_,
    (flatten_wellFormed h).coherent.connectedOnce, fun c => connections_flatten h⟩
  · obtain ⟨hflat, hfix⟩ := (flatten_unfolds h).kept x hx hxp
    exact ⟨hflat, fun p hp => congrArg Spot.port (hfix p hp)⟩
  · obtain ⟨⟨u, hu, hs⟩, v, hv, ht⟩ := exists_units_of_wire h w hw
    exact ⟨List.mem_flatMap.2 ⟨u, hu, List.mem_append_right _ hs⟩,
      List.mem_flatMap.2 ⟨v, hv, List.mem_append_left _ ht⟩⟩

/-- Two ways from one side to the other. -/
def twoWays : FlowGraph :=
  let work (name : String) : ElementDecl :=
    .operator name { name, kind := "update", resources := [] } [.plain "in" "Record"]
      [.plain "out" "Record"] .none
  assemble
    [.input "a" "Record", .input "b" "Record", work "f", work "g", .output "c" "Record",
      .output "d" "Record"]
    [(0, 2), (1, 4), (3, 6), (5, 7)]

/-- A part of two ways, the first of which feeds the second. -/
def feedback : FlowGraph :=
  assemble [.input "src" "Record", .flowPart "p" twoWays, .output "dst" "Record"]
    [(0, 1), (3, 2), (4, 5)]

theorem feedback_wellFormed : feedback.WellFormed := by
  have hinner : twoWays.WellFormed := assemble_wellFormed _ (by simp)
  exact assemble_wellFormed _ (by simp [hinner])

set_option maxRecDepth 10000 in
theorem feedback_disconnected :
    feedback.isLegal = true ∧ ∃ w ∈ feedback.wires,
      (⟨feedback.place w.1, feedback.place w.2⟩ : Connection) ∉ feedback.flatten.1.connections := by
  refine ⟨by decide +kernel, (.here 3, .here 2), by decide +kernel, by decide +kernel⟩

theorem feedback_keeps_connections : feedback.WellFormed ∧
    ∀ c, c ∈ feedback.flatten.1.connections ↔
      ∃ w ∈ feedback.properWires, c = ⟨feedback.place w.1, feedback.place w.2⟩ :=
  ⟨feedback_wellFormed, (flatten_keeps_connections feedback_wellFormed).2.2.2.2.2⟩

end FlowGraph
end FlowPlan
