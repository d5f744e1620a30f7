import FlowPlan.Proofs.Blocks
import FlowPlan.Proofs.Carrying
import FlowPlan.StageGraph.Stages

/-!
Which block connections a plan has.

A link is found by following checkpoints from an output of a block, so there is one for each path
through checkpoints that ends in another block.  A path that comes back into its block is left out
whether or not it was materialized on the way, which `mem_connections_plan` makes precise.
-/

namespace FlowPlan
namespace StageGraph

open FlowGraph Relation

variable {g : FlowGraph}

/-! ## Following checkpoints -/

/-- One port is behind the checkpoint that the other one enters. -/
def Beyond (g : FlowGraph) (p q : PortId) : Prop :=
  ∃ e, g.owner? p = some e ∧ e.isCheckpoint = true ∧ q ∈ g.behindCheckpoint e

/-- A port is reached from one of some ports, through checkpoints whose ports are still unmet. -/
def Arrives (g : FlowGraph) (unmet qs : List PortId) (p : PortId) : Prop :=
  ∃ q ∈ qs, q ∈ unmet ∧ ReflTransGen (fun a b => Beyond g a b ∧ b ∈ unmet) q p

theorem Arrives.mono {unmet more qs rs : List PortId} {p : PortId} (h : Arrives g unmet qs p)
    (hsub : ∀ q ∈ unmet, q ∈ more) (hqs : ∀ q ∈ qs, q ∈ rs) : Arrives g more rs p := by
  obtain ⟨q, hq, hunmet, hpath⟩ := h
  exact ⟨q, hqs q hq, hsub q hunmet,
    ReflTransGen.mono (fun _ b hab => ⟨hab.1, hsub b hab.2⟩) q p hpath⟩

/-- A port that is met is not needed on the way any more. -/
theorem arrives_cons {unmet qs : List PortId} {p r : PortId} (hr : r ∈ unmet) :
    Arrives g unmet (r :: qs) p ↔
      p = r ∨ (∃ b, Beyond g r b ∧ Arrives g (unmet.erase r) [b] p) ∨
        Arrives g (unmet.erase r) qs p := by
  have hsub : ∀ q ∈ unmet.erase r, q ∈ unmet := fun q hq => List.mem_of_mem_erase hq
  constructor
  · intro h
    obtain ⟨q, hq, hunmet, hpath⟩ := h
    induction hpath with
    | refl =>
      by_cases heq : q = r
      · exact .inl heq
      · have hq := (List.mem_cons.1 hq).resolve_left heq
        exact .inr (.inr ⟨q, hq, (List.mem_erase_of_ne heq).2 hunmet, .refl⟩)
    | @tail a b _ hstep ih =>
      by_cases heq : b = r
      · exact .inl heq
      · have hb := (List.mem_erase_of_ne heq).2 hstep.2
        rcases ih with rfl | ⟨c, hc, d, hd, hdun, hpath⟩ | ⟨d, hd, hdun, hpath⟩
        · exact .inr (.inl ⟨b, hstep.1, b, List.mem_singleton_self b, hb, .refl⟩)
        · exact .inr (.inl ⟨c, hc, d, hd, hdun, hpath.tail ⟨hstep.1, hb⟩⟩)
        · exact .inr (.inr ⟨d, hd, hdun, hpath.tail ⟨hstep.1, hb⟩⟩)
  · intro h
    rcases h with rfl | ⟨b, hb, h⟩ | h
    · exact ⟨p, List.mem_cons_self, hr, .refl⟩
    · obtain ⟨q, hq, hunmet, hpath⟩ := h.mono hsub fun q hq => hq
      obtain rfl := List.mem_singleton.1 hq
      exact ⟨r, List.mem_cons_self, hr, .head ⟨hb, hunmet⟩ hpath⟩
    · exact h.mono hsub fun q hq => List.mem_cons_of_mem r hq

theorem arrives_cons_of_not_mem {unmet qs : List PortId} {p r : PortId} (hr : r ∉ unmet) :
    Arrives g unmet (r :: qs) p ↔ Arrives g unmet qs p := by
  constructor
  · intro h
    obtain ⟨q, hq, hunmet, hpath⟩ := h
    rcases List.mem_cons.1 hq with rfl | hq
    · exact absurd hunmet hr
    · exact ⟨q, hq, hunmet, hpath⟩
  · exact fun h => h.mono (fun q hq => hq) fun q hq => List.mem_cons_of_mem r hq

theorem arrives_append {unmet qs rs : List PortId} {p : PortId} :
    Arrives g unmet (qs ++ rs) p ↔ Arrives g unmet qs p ∨ Arrives g unmet rs p := by
  simp only [Arrives, List.mem_append, or_and_right, exists_or]

theorem exists_arrives {unmet bs : List PortId} {p : PortId} :
    (∃ b ∈ bs, Arrives g unmet [b] p) ↔ Arrives g unmet bs p := by
  simp [Arrives]

theorem beyond_iff {r b : PortId} {e : Element} (he : g.owner? r = some e) :
    Beyond g r b ↔ e.isCheckpoint = true ∧ b ∈ g.behindCheckpoint e := by
  simp [Beyond, he]

/-- The port belongs to an element that is no checkpoint. -/
def IsEnd (g : FlowGraph) (p : PortId) : Prop :=
  ∃ e, g.owner? p = some e ∧ e.isCheckpoint = false

theorem isEnd_iff {r : PortId} {e : Element} (he : g.owner? r = some e) :
    IsEnd g r ↔ e.isCheckpoint = false := by
  simp [IsEnd, he]

/-- Which ports are found, whatever has been met before and whatever is pending. -/
theorem mem_resolve {unmet : List PortId} {pending : List (PortId × Bool)} {p : PortId} :
    p ∈ (resolve g unmet pending).map (·.1) ↔
      IsEnd g p ∧ Arrives g unmet (pending.map (·.1)) p := by
  induction unmet, pending using resolve.induct g with
  | case1 unmet => simp [resolve, Arrives]
  | case2 unmet r direct pending hr hnone ih =>
    have hbeyond : ∀ b, ¬ Beyond g r b := by simp [Beyond, hnone]
    have hend : IsEnd g p → p ≠ r := by
      intro h heq
      simp [heq, IsEnd, hnone] at h
    rw [resolve, dif_pos hr, hnone, List.map_cons, arrives_cons hr]
    simp only [ih, hbeyond, false_and, exists_false, false_or]
    exact and_congr_right fun h => (or_iff_right (hend h)).symm
  | case3 unmet r direct pending hr e he hcheck ih =>
    have hend : IsEnd g p → p ≠ r := by
      intro h heq
      simp [heq, isEnd_iff he, hcheck] at h
    have hbehind : ((g.behindCheckpoint e).map (·, false)).map (·.1) = g.behindCheckpoint e := by
      simp [Function.comp_def]
    rw [resolve, dif_pos hr, he, List.map_cons, arrives_cons hr]
    simp only [hcheck, if_true, ih, beyond_iff he, true_and, exists_arrives, List.map_append,
      hbehind, arrives_append]
    exact and_congr_right fun h => (or_iff_right (hend h)).symm
  | case4 unmet r direct pending hr e he hcheck ih =>
    have hend : p = r → IsEnd g p := by
      intro heq
      rw [heq, isEnd_iff he]
      simpa using hcheck
    rw [resolve, dif_pos hr, he, List.map_cons, arrives_cons hr]
    simp only [hcheck, Bool.false_eq_true, if_false, List.map_cons, List.mem_cons, ih,
      beyond_iff he, false_and, exists_false, false_or]
    tauto
  | case5 unmet r direct pending hr ih =>
    rw [resolve, dif_neg hr, ih, List.map_cons, arrives_cons_of_not_mem hr]

/-! ## The targets of an output port -/

theorem mem_behindCheckpoint (h : g.Coherent) {e : Element} (he : e ∈ g.elements) {p : PortId} :
    p ∈ g.behindCheckpoint e ↔ ∃ o ∈ e.outputIds, ⟨o, p⟩ ∈ g.connections := by
  have hport : ∀ o ∈ e.outputs, g.isOutputPort o.id = true := fun o ho =>
    isOutputPort_iff.2 ⟨e, he, List.mem_map_of_mem ho⟩
  rw [behindCheckpoint, List.mem_flatMap]
  constructor
  · intro hmem
    obtain ⟨o, ho, hp⟩ := hmem
    exact ⟨o.id, List.mem_map_of_mem ho, (h.mem_opposites (hport o ho)).1 hp⟩
  · intro hmem
    obtain ⟨o, ho, hc⟩ := hmem
    obtain ⟨port, hport', rfl⟩ := List.mem_map.1 ho
    exact ⟨port, hport', (h.mem_opposites (hport port hport')).2 hc⟩

theorem mem_inputPortIds {p : PortId} : p ∈ g.inputPortIds ↔ g.isInputPort p = true := by
  rw [inputPortIds, List.mem_flatMap, isInputPort_iff]
  rfl

/-- Following checkpoints from what an output port is connected with follows the paths through
checkpoints. -/
theorem arrives_iff_carries (h : g.Coherent) {u d : PortId} (hu : g.isOutputPort u = true) :
    Arrives g g.inputPortIds (g.opposites u) d ↔ g.Carries (·.isCheckpoint = true) u d := by
  constructor
  · intro harr
    obtain ⟨q, hq, -, hpath⟩ := harr
    have hc := (h.mem_opposites hu).1 hq
    clear hq hu
    induction hpath using ReflTransGen.head_induction_on generalizing u with
    | refl => exact .direct hc
    | head hstep _ ih =>
      obtain ⟨⟨e, he, hcheck, hbehind⟩, -⟩ := hstep
      obtain ⟨he, hp⟩ := mem_of_owner?_eq_some he
      obtain ⟨o, ho, hrest⟩ := (mem_behindCheckpoint h he).1 hbehind
      exact .through hc he hcheck (h.target_mem_inputIds hc he hp) ho (ih hrest)
  · intro hp
    induction hp with
    | direct hc =>
      exact ⟨_, (h.mem_opposites hu).2 hc, mem_inputPortIds.2 (h.joined _ hc).2, .refl⟩
    | through hc he hcheck ha hb _ ih =>
      have hb' := isOutputPort_iff.2 ⟨_, he, hb⟩
      obtain ⟨q, hq, hunmet, hpath⟩ := ih hb'
      have hbeyond : Beyond g _ q := ⟨_, h.owner?_eq_some he (Element.mem_portIds.2 (.inl ha)),
        hcheck, (mem_behindCheckpoint h he).2 ⟨_, hb, (h.mem_opposites hb').1 hq⟩⟩
      exact ⟨_, (h.mem_opposites hu).2 hc, mem_inputPortIds.2 (h.joined _ hc).2,
        .head ⟨hbeyond, hunmet⟩ hpath⟩

theorem mem_targets (h : g.Coherent) {u d : PortId} (hu : g.isOutputPort u = true) :
    d ∈ (targets g u).map (·.1) ↔ IsEnd g d ∧ g.Carries (·.isCheckpoint = true) u d := by
  have hports : ((g.opposites u).map (·, true)).map (·.1) = g.opposites u := by
    simp [Function.comp_def]
  rw [targets, mem_resolve, ← arrives_iff_carries h hu, hports]

/-! ## Links -/

/-- The links of the plan of a graph. -/
def linksOf (g : FlowGraph) : List Link := (routes g (blocksOf g)).filterMap (·.link?)

theorem connections_plan (g : FlowGraph) :
    (plan g).1.connections = (linksOf g).map (·.connection) := rfl

theorem mem_linksOf {l : Link} :
    l ∈ linksOf g ↔ l.source ∈ blocksOf g ∧ l.connection.source ∈ l.source.outputs ∧
      (l.connection.target, l.direct) ∈ targets g l.connection.source ∧
        (g.ownerId? l.connection.target).any l.source.holds = false ∧
          (blocksOf g).find? (·.ports.contains l.connection.target) = some l.target := by
  simp only [linksOf, routes, routesFrom, List.mem_filterMap, List.mem_flatMap, List.mem_map,
    List.mem_filter, Route.link?]
  constructor
  · intro hmem
    obtain ⟨r, ⟨b, hb, out, hout, ⟨p, direct⟩, ⟨hp, hleave⟩, rfl⟩, hl⟩ := hmem
    obtain ⟨t, ht, rfl⟩ := Option.map_eq_some_iff.1 hl
    exact ⟨hb, hout, hp, by simpa using hleave, ht⟩
  · intro hl
    obtain ⟨hb, hout, hp, hleave, ht⟩ := hl
    refine ⟨_, ⟨l.source, hb, l.connection.source, hout, _, ⟨hp, by simp [hleave]⟩, rfl⟩, ?_⟩
    rw [ht]
    rfl

/-! ## Paths and block connections -/

/-- The first and the last connection of a path join its ends to the elements on it. -/
theorem exists_first_connection {via : Element → Prop} {u d : PortId}
    (hp : g.Carries via u d) :
    ∃ a, ⟨u, a⟩ ∈ g.connections ∧ (a = d ∨ ∃ z ∈ g.elements, via z ∧ a ∈ z.inputIds) := by
  cases hp with
  | direct hc => exact ⟨d, hc, .inl rfl⟩
  | through hc he hv ha _ _ => exact ⟨_, hc, .inr ⟨_, he, hv, ha⟩⟩

theorem exists_last_connection {via : Element → Prop} {u d : PortId} (hp : g.Carries via u d) :
    ∃ w, ⟨w, d⟩ ∈ g.connections ∧ (w = u ∨ ∃ z ∈ g.elements, via z ∧ w ∈ z.outputIds) := by
  induction hp with
  | @direct u d hc => exact ⟨u, hc, .inl rfl⟩
  | through _ he hv _ hb _ ih =>
    obtain ⟨w, hc, rfl | hz⟩ := ih
    · exact ⟨_, hc, .inr ⟨_, he, hv, hb⟩⟩
    · exact ⟨w, hc, .inr hz⟩

section Paths

variable {x y : Element} {u d : PortId}

theorem not_mem_elements_of_isCheckpoint (h : g.Coherent) {b : Block} (hb : b ∈ blocksOf g)
    {z : Element} (hz : z ∈ g.elements) (hzc : z.isCheckpoint = true) : z.id ∉ b.elements := by
  intro hzb
  rw [isCheckpoint_of_mem_elements h hb hz hzb] at hzc
  cases hzc

/-- A path that ends outside of the block where it begins leaves the block at an output. -/
theorem mem_outputs_of_carries (h : g.Coherent) {b : Block} (hb : b ∈ blocksOf g)
    (hx : x ∈ g.elements) (hy : y ∈ g.elements) (hu : u ∈ x.outputIds) (hd : d ∈ y.inputIds)
    (hxb : x.id ∈ b.elements) (hyb : y.id ∉ b.elements)
    (hpath : g.Carries (·.isCheckpoint = true) u d) : u ∈ b.outputs := by
  obtain ⟨a, hc, rfl | ⟨z, hz, hzc, ha⟩⟩ := exists_first_connection hpath
  · exact mem_outputs h hb hc hx hu hxb hy hd hyb
  · exact mem_outputs h hb hc hx hu hxb hz ha (not_mem_elements_of_isCheckpoint h hb hz hzc)

theorem mem_inputs_of_carries (h : g.Coherent) {b : Block} (hb : b ∈ blocksOf g)
    (hx : x ∈ g.elements) (hy : y ∈ g.elements) (hu : u ∈ x.outputIds) (hd : d ∈ y.inputIds)
    (hxb : x.id ∉ b.elements) (hyb : y.id ∈ b.elements)
    (hpath : g.Carries (·.isCheckpoint = true) u d) : d ∈ b.inputs := by
  obtain ⟨w, hc, rfl | ⟨z, hz, hzc, hw⟩⟩ := exists_last_connection hpath
  · exact mem_inputs h hb hc hy hd hyb hx hu hxb
  · exact mem_inputs h hb hc hy hd hyb hz hw (not_mem_elements_of_isCheckpoint h hb hz hzc)

/-- Between elements that are no checkpoints, the block connections of a plan are the paths through
checkpoints that do not end in the block where they began. -/
theorem mem_connections_plan (h : g.Coherent) (hx : x ∈ g.elements) (hy : y ∈ g.elements)
    (hxc : x.isCheckpoint = false) (hyc : y.isCheckpoint = false) (hu : u ∈ x.outputIds)
    (hd : d ∈ y.inputIds) :
    ⟨u, d⟩ ∈ (plan g).1.connections ↔ g.Carries (·.isCheckpoint = true) u d ∧
      ¬ ∃ b ∈ (plan g).1.blocks, x.id ∈ b.elements ∧ y.id ∈ b.elements := by
  have huo : g.isOutputPort u = true := isOutputPort_iff.2 ⟨x, hx, hu⟩
  have howner : g.ownerId? d = some y.id := h.ownerId?_of_input hy hd
  rw [connections_plan, show (plan g).1.blocks = blocksOf g from rfl]
  constructor
  · intro hmem
    obtain ⟨l, hl, hconn⟩ := List.mem_map.1 hmem
    obtain ⟨hb, hout, htarget, hleave, -⟩ := mem_linksOf.1 hl
    rw [hconn] at hout htarget hleave
    refine ⟨((mem_targets h huo).1 (List.mem_map_of_mem htarget)).2, fun hsame => ?_⟩
    obtain ⟨b, hb', hxb, hyb⟩ := hsame
    obtain ⟨x', hx', hxl, hux⟩ := exists_of_mem_outputs h hb hout
    obtain rfl := h.eq_of_output hx' hx hux hu
    rw [eq_of_mem_elements h hb hb' hxl hxb, howner, Option.any_some, holds_iff.2 hyb] at hleave
    cases hleave
  · intro hpath
    obtain ⟨hpath, hapart⟩ := hpath
    obtain ⟨b, hb, hxb⟩ := exists_block h hx hxc
    obtain ⟨b', hb', hyb⟩ := exists_block h hy hyc
    have hyout : y.id ∉ b.elements := fun hyb => hapart ⟨b, hb, hxb, hyb⟩
    have hxout : x.id ∉ b'.elements := fun hxb' => hapart ⟨b', hb', hxb', hyb⟩
    have hout := mem_outputs_of_carries h hb hx hy hu hd hxb hyout hpath
    have hin := mem_inputs_of_carries h hb' hx hy hu hd hxout hyb hpath
    obtain ⟨⟨p, direct⟩, htarget, rfl⟩ := List.mem_map.1 ((mem_targets h huo).2
      ⟨⟨y, h.owner?_eq_some hy (Element.mem_portIds.2 (.inl hd)), hyc⟩, hpath⟩)
    refine List.mem_map.2 ⟨⟨⟨u, p⟩, b, b', direct⟩, mem_linksOf.2 ⟨hb, hout, htarget, ?_, ?_⟩, rfl⟩
    · rw [howner, Option.any_some, ← Bool.not_eq_true, holds_iff]
      exact hyout
    · exact find?_port h hb' (List.mem_append_left _ hin)

end Paths

end StageGraph
end FlowPlan
