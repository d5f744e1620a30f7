import FlowPlan.Proofs.NormalForms
import FlowPlan.Proofs.Threading

/-!
Normalizing a normal form.

A stage head may take materialized records without a map side in front of it.  While identities are
inserted it gets one all the same, and it loses it again while they are taken out.  So on a graph
that has what a normal form should have, the passes do nothing but put an identity on every
connection into a stage head and take it out, which moves these connections to the end of the list.
-/

namespace FlowPlan
namespace FlowGraph

variable {g k : FlowGraph} {e x y : Element} {c : Connection}

/-- Everything the passes establish holds already. -/
structure Settled (g : FlowGraph) : Prop where
  coherent : g.Coherent
  flat : g.isFlat = true
  merged : ∀ e ∈ g.elements, e.isShuffleBoundary = true → g.diverges e.id = false
  split : g.identitiesAreSplit = true
  maps : g.identitiesAreMaps = true
  fed : g.shufflesReadMaps = true
  materialized : g.headsReadMaterialized = true

/-- The connection leads into a stage head. -/
def intoHead (g : FlowGraph) (c : Connection) : Bool := (g.owner? c.target).any (·.isStageHead)

theorem intoHead_eq (h : g.Coherent) (hy : y ∈ g.elements) (ht : c.target ∈ y.inputIds) :
    g.intoHead c = y.isStageHead := by
  rw [intoHead, h.owner?_eq_some hy (Element.mem_portIds.2 (.inl ht)), Option.any_some]

theorem foldl_of_fixed {α β : Type} {f : β → α → β} {l : List α} {b : β}
    (h : ∀ a ∈ l, f b a = b) : l.foldl f b = b :=
  List.foldlRecOn l f (motive := fun b' => b' = b) rfl fun _ heq a ha => heq ▸ h a ha

namespace Settled

variable (h : g.Settled)

include h

theorem insertCheckpoints : g.insertCheckpoints = (g, 0) := by
  have hk := h.coherent
  have hshuffles : (g.idsWhere (·.isShuffleBoundary)).foldl checkpointShuffle (g, 0) = (g, 0) := by
    refine foldl_of_fixed fun i hi => ?_
    obtain ⟨e, he, hs, rfl⟩ := mem_idsWhere.1 hi
    rw [checkpointShuffle, h.merged e he hs]
    rfl
  rw [FlowGraph.insertCheckpoints, hshuffles]
  refine foldl_of_fixed fun i hi => foldl_of_fixed fun c hc => ?_
  obtain ⟨y, hy, hhead, rfl⟩ := mem_idsWhere.1 hi
  obtain ⟨hc, ht⟩ := (hk.mem_incoming hy).1 hc
  obtain ⟨x, hx, hs⟩ := hk.source_mem hc
  have hstage := (headsReadMaterialized_iff hk).1 h.materialized x hx y hy hhead ⟨c, hc, hs, ht⟩
  rw [checkpointOn, hk.owner?_eq_some hx (Element.mem_portIds.2 (.inr hs)), Option.any_some,
    hstage]
  rfl

/-- Only in front of stage heads a map side is missing. -/
theorem lacksMap_eq_intoHead (hk : k.Coherent) (hold : ∀ x ∈ g.elements, x ∈ k.elements)
    (hc : c ∈ g.connections) : k.lacksMap c = g.intoHead c := by
  obtain ⟨x, hx, hs⟩ := h.coherent.source_mem hc
  obtain ⟨y, hy, ht⟩ := h.coherent.target_mem hc
  have hf : g.Feeds x y := ⟨c, hc, hs, ht⟩
  rw [lacksMap_eq hk (hold x hx) (hold y hy) hs ht, intoHead_eq h.coherent hy ht]
  by_cases hhead : y.isStageHead = true
  · rw [(headsReadMaterialized_iff h.coherent).1 h.materialized x hx y hy hhead hf, hhead,
      Bool.or_true, Bool.and_true]
  · rw [Bool.not_eq_true] at hhead
    rw [hhead, Bool.or_false, Bool.and_eq_false_iff, ← Bool.not_eq_true, ← Bool.not_eq_true,
      ← not_and_or]
    exact fun hmem => (shufflesReadMaps_iff h.coherent).1 h.fed x hx y hy hmem.1 hmem.2 hf

/-- An identity is put on every connection into a stage head. -/
theorem insertIdentities : ∃ ts : List Thread,
    ts.map (·.connection) = g.connections.filter g.intoHead ∧
      g.insertIdentities.2 = ts.length ∧
        Threaded g ts (g.connections.filter (fun c => !g.intoHead c)) [] g.insertIdentities.1 := by
  have hend := foldl_rest_induction (f := identityOn)
    (P := fun s rest => ∃ done ts, g.connections = done ++ rest ∧
      ts.map (·.connection) = done.filter g.intoHead ∧ s.2 = ts.length ∧
        Threaded g ts (done.filter (fun c => !g.intoHead c) ++ rest) [] s.1)
    ?_ g.connections (g, 0) ⟨[], [], rfl, rfl, rfl, .refl h.coherent⟩
  · obtain ⟨done, ts, hdone, hheads, hcount, hk⟩ := hend
    rw [List.append_nil] at hdone hk
    subst hdone
    exact ⟨ts, hheads, hcount, hk⟩
  · intro s c rest hs
    obtain ⟨done, ts, hdone, hheads, hcount, hk⟩ := hs
    have hc : c ∈ g.connections := by
      rw [hdone]
      exact List.mem_append_right _ List.mem_cons_self
    refine ⟨done ++ [c], ?_⟩
    rw [identityOn, h.lacksMap_eq_intoHead hk.coherent (fun x hx => hk.old hx) hc,
      List.append_assoc, List.filter_append, List.filter_append]
    by_cases hhead : g.intoHead c = true
    · refine ⟨ts ++ [⟨s.1.freshPseudo (s.1.portType c.source) .none, c⟩], hdone, ?_, ?_, ?_⟩
      · rw [List.map_append, hheads, List.filter_cons_of_pos hhead]
        rfl
      · rw [if_pos hhead, List.length_append, hcount]
        rfl
      · rw [if_pos hhead, List.filter_cons_of_neg (by simp [hhead]), List.filter_nil,
          List.append_nil]
        exact hk.insertPseudoOn
    · refine ⟨ts, hdone, ?_, ?_, ?_⟩
      · rw [List.filter_cons_of_neg hhead, List.filter_nil, List.append_nil, hheads]
      · rw [if_neg hhead, hcount]
      · rw [if_neg hhead, List.filter_cons_of_pos (by simp [hhead]), List.filter_nil,
          List.append_assoc]
        exact hk

/-! ## The identities that were there -/

section Threads

variable {ts : List Thread} {before after : List Connection}
  (hk : Threaded g ts before after k) (hheads : ∀ p ∈ ts, g.intoHead p.connection = true)

include hk hheads

theorem connection_not_at (he : e ∈ g.elements) (hi : e.isIdentity = true) {p : Thread}
    (hp : p ∈ ts) : p.connection.source ∉ e.outputIds ∧ p.connection.target ∉ e.inputIds := by
  have hc := hk.connection_mem hp
  obtain ⟨y, hy, ht⟩ := h.coherent.target_mem hc
  have hhead := hheads p hp
  rw [intoHead_eq h.coherent hy ht] at hhead
  constructor
  · intro hs
    have hstage := (headsReadMaterialized_iff h.coherent).1 h.materialized e he y hy hhead
      ⟨_, hc, hs, ht⟩
    rw [isStageBoundary_eq_false_of_isIdentity hi] at hstage
    cases hstage
  · intro ht'
    rw [h.coherent.eq_of_input hy he ht ht', isStageHead_eq_false_of_isIdentity hi] at hhead
    cases hhead

/-- The connections of an identity that was there have not changed. -/
theorem mem_connections_iff (he : e ∈ g.elements) (hi : e.isIdentity = true)
    (hor : c.source ∈ e.outputIds ∨ c.target ∈ e.inputIds) :
    c ∈ k.connections ↔ c ∈ g.connections := by
  have hne : ∀ {p : Thread}, p ∈ ts → c ∉ p.legs ∧ c ≠ p.connection := by
    intro p hp
    obtain ⟨hsource, htarget⟩ := h.connection_not_at hk hheads he hi hp
    have hport : ∀ {q}, q ∈ e.portIds → q ∉ p.element.portIds := fun hq hqp =>
      hk.ne_element he hp (hk.coherent.eq_of_port (hk.old he) (hk.element_mem hp) hq hqp)
    refine ⟨fun hlegs => ?_, fun heq => ?_⟩
    · rcases Thread.mem_legs.1 hlegs with ⟨hs, ht⟩ | ⟨hs, ht⟩
      · rcases hor with hor | hor
        · exact hsource (hs ▸ hor)
        · exact hport (Element.mem_portIds.2 (.inl hor)) (Element.mem_portIds.2 (.inl ht))
      · rcases hor with hor | hor
        · exact hport (Element.mem_portIds.2 (.inr hor)) (Element.mem_portIds.2 (.inr hs))
        · exact htarget (ht ▸ hor)
    · subst heq
      exact hor.elim hsource htarget
  constructor
  · intro hc
    rcases hk.mem_connections.1 hc with hc | ⟨p, hp, hc⟩
    · exact hk.mem_of_mem_append hc
    · exact absurd hc (hne hp).1
  · intro hc
    have hmem := hk.perm.symm.subset hc
    simp only [List.mem_append, List.mem_map] at hmem
    refine hk.mem_connections.2 (.inl (List.mem_append.2 ?_))
    rcases hmem with (hc | ⟨p, hp, rfl⟩) | hc
    · exact .inl hc
    · exact absurd rfl (hne hp).2
    · exact .inr hc

theorem feeds_identity_iff (he : e ∈ g.elements) (hi : e.isIdentity = true) :
    k.Feeds x e ↔ g.Feeds x e :=
  exists_congr fun _ => ⟨fun hmem => ⟨(h.mem_connections_iff hk hheads he hi (.inr hmem.2.2)).1
    hmem.1, hmem.2⟩, fun hmem => ⟨(h.mem_connections_iff hk hheads he hi (.inr hmem.2.2)).2
    hmem.1, hmem.2⟩⟩

theorem identity_feeds_iff (he : e ∈ g.elements) (hi : e.isIdentity = true) :
    k.Feeds e y ↔ g.Feeds e y :=
  exists_congr fun _ => ⟨fun hmem => ⟨(h.mem_connections_iff hk hheads he hi (.inl hmem.2.1)).1
    hmem.1, hmem.2⟩, fun hmem => ⟨(h.mem_connections_iff hk hheads he hi (.inl hmem.2.1)).2
    hmem.1, hmem.2⟩⟩

theorem isMapBody_of_mem (he : e ∈ g.elements) (hi : e.isIdentity = true) :
    k.isMapBody e.id = true := by
  have hmap := List.all_eq_true.1 h.maps e.id (mem_idsWhere.2 ⟨e, he, hi, rfl⟩)
  obtain ⟨⟨x, hx, hxf⟩, ⟨y, hy, hyf⟩, hbefore, hbehind⟩ := (isMapBody_iff h.coherent he).1 hmap
  refine (isMapBody_iff hk.coherent (hk.old he)).2
    ⟨⟨x, hk.old hx, (h.feeds_identity_iff hk hheads he hi).2 hxf⟩,
      ⟨y, hk.old hy, (h.identity_feeds_iff hk hheads he hi).2 hyf⟩, fun x hx hf => ?_,
      fun y hy hf => ?_⟩
  · obtain ⟨c, hc, hs, ht⟩ := (h.feeds_identity_iff hk hheads he hi).1 hf
    obtain ⟨x', hx', hs'⟩ := h.coherent.source_mem hc
    obtain rfl := hk.coherent.eq_of_output (hk.old hx') hx hs' hs
    exact hbefore x' hx' ⟨c, hc, hs, ht⟩
  · obtain ⟨c, hc, hs, ht⟩ := (h.identity_feeds_iff hk hheads he hi).1 hf
    obtain ⟨y', hy', ht'⟩ := h.coherent.target_mem hc
    obtain rfl := hk.coherent.eq_of_input (hk.old hy') hy ht' ht
    exact hbehind y' hy' ⟨c, hc, hs, ht⟩

/-! ## The other passes -/

theorem splitIdentities : k.splitIdentities = (k, 0) := by
  refine foldl_of_fixed fun i hi => ?_
  rw [splitIfShared, if_pos]
  obtain ⟨e, he, hei, rfl⟩ := mem_idsWhere.1 hi
  obtain ⟨a, b, hin, hout⟩ :=
    Element.ports_of_isPseudo (hk.coherent.shaped e he) (isPseudo_of_isIdentity hei)
  rw [hk.elements, List.mem_append, List.mem_map] at he
  rcases he with he | ⟨p, hp, rfl⟩
  · rw [incoming_le_one_iff hk.coherent (hk.old he) hin,
      outgoing_le_one_iff hk.coherent (hk.old he) hout]
    have hinto : ∀ u, ⟨u, a⟩ ∈ k.connections ↔ ⟨u, a⟩ ∈ g.connections := fun u =>
      h.mem_connections_iff hk hheads he hei (.inr (by rw [hin]; exact List.mem_singleton_self a))
    have hfrom : ∀ d, ⟨b, d⟩ ∈ k.connections ↔ ⟨b, d⟩ ∈ g.connections := fun d =>
      h.mem_connections_iff hk hheads he hei (.inl (by rw [hout]; exact List.mem_singleton_self b))
    simp only [hinto, hfrom]
    rw [← incoming_le_one_iff h.coherent he hin, ← outgoing_le_one_iff h.coherent he hout]
    exact identitiesAreSplit_iff.1 h.split e he hei
  · left
    rw [hk.incoming_eq h.coherent hp hin]
    exact Nat.le_refl 1

/-- An identity in front of a stage head is no map side. -/
theorem isMapBody_eq_false {p : Thread} (hp : p ∈ ts) : k.isMapBody p.element.id = false := by
  obtain ⟨y, hy, ht⟩ := h.coherent.target_mem (hk.connection_mem hp)
  have hhead := hheads p hp
  rw [intoHead_eq h.coherent hy ht] at hhead
  obtain ⟨a, b, hin, hout⟩ := Element.ports_of_isPseudo
    (hk.coherent.shaped _ (hk.element_mem hp)) (isPseudo_of_isIdentity (hk.identities p hp))
  have hb : b ∈ p.element.outputIds := by rw [hout]; exact List.mem_singleton_self b
  have hleg : (⟨b, p.connection.target⟩ : Connection) ∈ k.connections :=
    hk.mem_connections.2 (.inr ⟨p, hp, Thread.mem_legs.2 (.inr ⟨hb, rfl⟩)⟩)
  rw [← Bool.not_eq_true, isMapBody_iff hk.coherent (hk.element_mem hp)]
  intro hmap
  have hboundary := hmap.2.2.2 y (hk.old hy) ⟨_, hleg, hb, ht⟩
  rw [isBoundary_eq_false_of_isStageHead hhead] at hboundary
  cases hboundary

/-- The identities in front of stage heads are taken out, one after the other. -/
theorem foldl_bypassUnlessMap (n : Nat) :
    ∃ l, (ts.map (·.element.id)).foldl bypassUnlessMap (k, n) = (l, n + ts.length) ∧
      Threaded g [] before (after ++ ts.map (·.connection)) l := by
  induction ts generalizing k after n with
  | nil => exact ⟨k, rfl, by rwa [List.map_nil, List.append_nil]⟩
  | cons p ts ih =>
    have hp : p ∈ p :: ts := List.mem_cons_self
    have hstep : bypassUnlessMap (k, n) p.element.id = (k.bypass p.element.id, n + 1) := by
      have hthere : k.contains p.element.id = true :=
        List.any_eq_true.2 ⟨p.element, hk.element_mem hp, beq_self_eq_true _⟩
      rw [bypassUnlessMap, hthere, h.isMapBody_eq_false hk hheads hp]
      rfl
    obtain ⟨l, hl, hend⟩ := ih (hk.bypass h.coherent)
      (fun q hq => hheads q (List.mem_cons_of_mem p hq)) (n + 1)
    refine ⟨l, ?_, ?_⟩
    · rw [List.map_cons, List.foldl_cons, hstep, hl, List.length_cons, Nat.add_right_comm]
      rfl
    · rw [List.append_assoc] at hend
      exact hend

theorem reduceIdentities : ∃ l, k.reduceIdentities = (l, ts.length) ∧
    Threaded g [] before (after ++ ts.map (·.connection)) l := by
  have hfirst : g.identities.foldl bypassUnlessMap (k, 0) = (k, 0) := by
    refine foldl_of_fixed fun i hi => ?_
    obtain ⟨e, he, hei, rfl⟩ := mem_idsWhere.1 hi
    rw [bypassUnlessMap, h.isMapBody_of_mem hk hheads he hei, Bool.or_true]
    rfl
  obtain ⟨l, hl, hend⟩ := h.foldl_bypassUnlessMap hk hheads 0
  rw [Nat.zero_add] at hl
  refine ⟨l, ?_, hend⟩
  rw [FlowGraph.reduceIdentities, hk.identities_eq, List.foldl_append, hfirst, hl]

end Threads

/-- Nothing changes but the order of the connections. -/
theorem normalize :
    g.normalize.1.elements = g.elements ∧
      g.normalize.1.connections = g.connections.filter (fun c => !g.intoHead c)
        ++ g.connections.filter g.intoHead ∧
      g.normalize.2 = ⟨0, 0, (g.connections.filter g.intoHead).length, 0,
        (g.connections.filter g.intoHead).length⟩ := by
  obtain ⟨ts, hthreads, hcount, hk⟩ := h.insertIdentities
  have hheads : ∀ p ∈ ts, g.intoHead p.connection = true := fun p hp =>
    (List.mem_filter.1 (hthreads ▸ List.mem_map_of_mem hp)).2
  obtain ⟨l, hl, hend⟩ := h.reduceIdentities hk hheads
  have hlength : ts.length = (g.connections.filter g.intoHead).length := by
    rw [← hthreads, List.length_map]
  have helements := hend.elements
  have hconnections := hend.connections
  rw [List.map_nil, List.append_nil] at helements
  rw [List.flatMap_nil, List.append_nil, List.nil_append, hthreads] at hconnections
  simp only [FlowGraph.normalize, flatten_of_isFlat h.flat, h.insertCheckpoints,
    h.splitIdentities hk hheads, hl, hcount, hlength]
  exact ⟨helements, hconnections, trivial⟩

end Settled

/-! ## Normal forms -/

theorem normalize_settled (h : g.WellFormed) (hsplit : g.normalize.1.identitiesAreSplit = true)
    (hfed : g.normalize.1.shufflesReadMaps = true) (hclosed : g.normalize.1.ReduceClosed) :
    g.normalize.1.Settled where
  coherent := (normalize_wellFormed h).coherent
  flat := normalize_isFlat h
  merged := fun _ he hs => normalize_diverges_eq_false h hclosed he hs
  split := hsplit
  maps := normalize_identitiesAreMaps h
  fed := hfed
  materialized := normalize_headsReadMaterialized h

/-- Of the obligations of a normal form three always hold.  If the other two hold as well and the
reduce side is closed, normalizing again keeps the elements and the connections: each connection
into a stage head gets an identity and loses it again, and so ends up behind the others. -/
theorem renormalization_keeps_graph (h : g.WellFormed)
    (hsplit : g.normalize.1.identitiesAreSplit = true)
    (hfed : g.normalize.1.shufflesReadMaps = true) (hclosed : g.normalize.1.ReduceClosed) :
    g.normalize.1.normalize.1.elements = g.normalize.1.elements ∧
      g.normalize.1.normalize.1.connections
        = g.normalize.1.connections.filter (fun c => !g.normalize.1.intoHead c)
          ++ g.normalize.1.connections.filter g.normalize.1.intoHead ∧
      g.normalize.1.normalize.2
        = ⟨0, 0, (g.normalize.1.connections.filter g.normalize.1.intoHead).length, 0,
          (g.normalize.1.connections.filter g.normalize.1.intoHead).length⟩ :=
  (normalize_settled h hsplit hfed hclosed).normalize

/-- A stage head in front of an identity that is shared with the input. -/
def junction : FlowGraph :=
  assemble
    [.input "in" "Record",
      .operator "h" { name := "h", kind := "update", resources := [] } [.plain "in" "Record"]
        [.plain "out" "Record"] .stage,
      .pseudo "x" "Record" .none, .output "o1" "Record", .output "o2" "Record"]
    [(0, 1), (0, 3), (2, 3), (4, 5), (4, 6)]

theorem junction_wellFormed : junction.WellFormed :=
  assemble_wellFormed _ (by simp)

set_option maxRecDepth 10000 in
theorem junction_closed : junction.normalize.1.ReduceClosed := by
  have hnone : junction.normalize.1.elements.all (fun e => !e.isShuffleBoundary) = true := by
    decide +kernel
  intro y _ hbehind
  obtain ⟨-, e, he, hs, -⟩ := hbehind
  have hno := List.all_eq_true.1 hnone e he
  rw [hs] at hno
  cases hno

set_option maxRecDepth 10000 in
theorem junction_obligations : junction.normalize.1.identitiesAreSplit = true ∧
    junction.normalize.1.shufflesReadMaps = true := by decide +kernel

theorem junction_keeps_graph : junction.WellFormed ∧
    junction.normalize.1.identitiesAreSplit = true ∧
      junction.normalize.1.shufflesReadMaps = true ∧ junction.normalize.1.ReduceClosed ∧
        junction.normalize.1.normalize.1.elements = junction.normalize.1.elements :=
  ⟨junction_wellFormed, junction_obligations.1, junction_obligations.2, junction_closed,
    (renormalization_keeps_graph junction_wellFormed junction_obligations.1 junction_obligations.2
      junction_closed).1⟩

set_option maxRecDepth 10000 in
theorem junction_reordered :
    junction.isLegal = true ∧ junction.normalize.1.normalize.2 ≠ .zero ∧
      junction.normalize.1.normalize.1.connections ≠ junction.normalize.1.connections := by
  decide +kernel

end FlowGraph
end FlowPlan
