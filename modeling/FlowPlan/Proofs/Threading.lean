import FlowPlan.Proofs.SharedIdentities

/-!
Identities that are put on connections and taken out again.

An identity that is put on a connection takes the connection out of its place in the list, and when
the identity is taken out the connection comes back at the end.  `Threaded` lists the identities
that are in place together with their connections, so putting one more in and taking the first one
out are two steps from one such list to another.
-/

namespace FlowPlan
namespace FlowGraph

variable {g k : FlowGraph} {c : Connection} {x y : Element}

/-- An identity and the connection that it has been put on. -/
structure Thread where
  element : Element
  connection : Connection

/-- The connections that take the place of the one that the identity is on. -/
def Thread.legs (p : Thread) : List Connection :=
  p.element.inputIds.map (fun a => ⟨p.connection.source, a⟩)
    ++ p.element.outputIds.map (fun b => ⟨b, p.connection.target⟩)

theorem Thread.mem_legs {p : Thread} : c ∈ p.legs ↔
    (c.source = p.connection.source ∧ c.target ∈ p.element.inputIds) ∨
      (c.source ∈ p.element.outputIds ∧ c.target = p.connection.target) := by
  obtain ⟨s, t⟩ := c
  simp only [legs, List.mem_append, List.mem_map, Connection.mk.injEq]
  refine or_congr ⟨?_, ?_⟩ ⟨?_, ?_⟩
  · rintro ⟨a, ha, rfl, rfl⟩
    exact ⟨rfl, ha⟩
  · rintro ⟨rfl, ha⟩
    exact ⟨t, ha, rfl, rfl⟩
  · rintro ⟨b, hb, rfl, rfl⟩
    exact ⟨hb, rfl⟩
  · rintro ⟨hb, rfl⟩
    exact ⟨s, hb, rfl, rfl⟩

/-- Some connections of a graph run through identities of their own; of the others, some have been
there all the time and some are back again. -/
structure Threaded (g : FlowGraph) (ts : List Thread) (before after : List Connection)
    (k : FlowGraph) : Prop where
  coherent : k.Coherent
  elements : k.elements = g.elements ++ ts.map (·.element)
  connections : k.connections = before ++ ts.flatMap (·.legs) ++ after
  perm : (before ++ ts.map (·.connection) ++ after).Perm g.connections
  identities : ∀ p ∈ ts, p.element.isIdentity = true

theorem filter_ne_of_nodup {α β : Type} [DecidableEq β] {f : α → β} {l r : List α} {a : α}
    (h : ((l ++ a :: r).map f).Nodup) : (l ++ a :: r).filter (fun b => f b ≠ f a) = l ++ r := by
  rw [List.map_append, List.map_cons, List.nodup_middle, List.nodup_cons, ← List.map_append,
    List.mem_map] at h
  have hne : ∀ b ∈ l ++ r, decide (f b ≠ f a) = true := fun b hb =>
    decide_eq_true fun heq => h.1 ⟨b, hb, heq⟩
  rw [List.filter_append, List.filter_cons_of_neg (by simp), ← List.filter_append]
  exact List.filter_eq_self.2 hne

theorem connections_connect {u d : PortId} (hu : g.isOutputPort u = true)
    (hd : g.isInputPort d = true) (hnew : ⟨u, d⟩ ∉ g.connections) :
    (g.connect u d).connections = g.connections ++ [⟨u, d⟩] := by
  have hcan : g.canConnect u d = true := by simp [canConnect, hu, hd, hnew]
  rw [connect, if_pos hcan]

theorem connections_insertPseudoOn (h : g.Coherent) (hc : c ∈ g.connections)
    (boundary : Boundary) :
    (g.insertPseudoOn c boundary).connections
      = g.connections.filter (· ≠ c) ++ [⟨c.source, g.entry⟩, ⟨g.exit, c.target⟩] := by
  have hentry : (⟨c.source, g.entry⟩ : Connection) ∉ g.connections := fun hmem =>
    Nat.lt_irrefl _ (h.target_lt hmem)
  have hexit : (⟨g.exit, c.target⟩ : Connection) ∉ g.connections := fun hmem =>
    Nat.lt_irrefl _ (lt_exit (h.source_lt hmem))
  have hne : g.exit ≠ c.source := Nat.ne_of_gt (lt_exit (h.source_lt hc))
  have hleft : ∀ {c'}, c' ∉ g.connections → c' ∉ g.connections.filter (· ≠ c) := fun hno hmem =>
    hno (List.mem_filter.1 hmem).1
  rw [insertPseudoOn]
  generalize hk : (g.addFreshPseudo (g.portType c.source) boundary).disconnect c.source c.target = k
  have hconns : k.connections = g.connections.filter (· ≠ c) := by rw [← hk]; rfl
  have hin : ∀ p, k.isInputPort p = true ↔ g.isInputPort p = true ∨ p = g.entry := fun p => by
    rw [← hk]
    exact isInputPort_add_pseudo
  have hout : ∀ p, k.isOutputPort p = true ↔ g.isOutputPort p = true ∨ p = g.exit := fun p => by
    rw [← hk]
    exact isOutputPort_add_pseudo
  have hfirst : (k.connect c.source g.entry).connections
      = g.connections.filter (· ≠ c) ++ [⟨c.source, g.entry⟩] := by
    rw [connections_connect ((hout _).2 (.inl (h.joined c hc).1)) ((hin _).2 (.inr rfl)), hconns]
    rw [hconns]
    exact hleft hentry
  show ((k.connect c.source g.entry).connect g.exit c.target).connections = _
  rw [connections_connect, hfirst, List.append_assoc]
  · rfl
  · rw [isOutputPort_congr (elements_connect _ _ _)]
    exact (hout _).2 (.inr rfl)
  · rw [isInputPort_congr (elements_connect _ _ _)]
    exact (hin _).2 (.inl (h.joined c hc).2)
  · rw [hfirst, List.mem_append, List.mem_singleton, not_or]
    exact ⟨hleft hexit, fun heq => hne (congrArg Connection.source heq)⟩

namespace Threaded

variable {ts : List Thread} {before after : List Connection} {p q : Thread}

theorem refl (h : g.Coherent) : Threaded g [] g.connections [] g where
  coherent := h
  elements := by simp
  connections := by simp
  perm := by simp
  identities := by simp

theorem old (hk : Threaded g ts before after k) (hx : x ∈ g.elements) : x ∈ k.elements := by
  rw [hk.elements]
  exact List.mem_append_left _ hx

theorem element_mem (hk : Threaded g ts before after k) (hp : p ∈ ts) :
    p.element ∈ k.elements := by
  rw [hk.elements]
  exact List.mem_append_right _ (List.mem_map_of_mem hp)

theorem connection_mem (hk : Threaded g ts before after k) (hp : p ∈ ts) :
    p.connection ∈ g.connections :=
  hk.perm.subset (List.mem_append_left _ (List.mem_append_right _ (List.mem_map_of_mem hp)))

theorem mem_connections (hk : Threaded g ts before after k) :
    c ∈ k.connections ↔ c ∈ before ++ after ∨ ∃ p ∈ ts, c ∈ p.legs := by
  rw [hk.connections]
  simp only [List.mem_append, List.mem_flatMap]
  exact or_right_comm

theorem mem_of_mem_append (hk : Threaded g ts before after k) (hc : c ∈ before ++ after) :
    c ∈ g.connections := by
  refine hk.perm.subset ?_
  simp only [List.mem_append] at hc ⊢
  tauto

/-- The identities are new, and each of them is listed once. -/
theorem ne_element (hk : Threaded g ts before after k) (hx : x ∈ g.elements) (hp : p ∈ ts) :
    x ≠ p.element := by
  have hn := hk.coherent.elements_nodup
  rw [hk.elements, List.nodup_append] at hn
  exact hn.2.2 x hx p.element (List.mem_map_of_mem hp)

theorem elements_nodup (hk : Threaded g ts before after k) : (ts.map (·.element)).Nodup := by
  have hn := hk.coherent.elements_nodup
  rw [hk.elements, List.nodup_append] at hn
  exact hn.2.1

theorem identities_eq (hk : Threaded g ts before after k) :
    k.identities = g.identities ++ ts.map (·.element.id) := by
  have hall : (ts.map (·.element)).filter (·.isIdentity) = ts.map (·.element) := by
    refine List.filter_eq_self.2 fun x hx => ?_
    obtain ⟨p, hp, rfl⟩ := List.mem_map.1 hx
    exact hk.identities p hp
  rw [FlowGraph.identities, FlowGraph.identities, idsWhere, idsWhere, hk.elements,
    List.filter_append, hall, List.map_append, List.map_map]
  rfl

theorem touches_iff {e : Element} :
    touches e c = true ↔ c.source ∈ e.portIds ∨ c.target ∈ e.portIds := by
  rw [touches, Bool.or_eq_true, Element.owns_iff, Element.owns_iff]

theorem not_touches_old (h : g.Coherent) (hk : Threaded g ts before after k) (hp : p ∈ ts)
    (hc : c ∈ g.connections) : touches p.element c = false := by
  have hpk := hk.element_mem hp
  rw [← Bool.not_eq_true, touches_iff]
  intro hor
  rcases hor with hs | ht
  · obtain ⟨x, hx, hsx⟩ := h.source_mem hc
    exact hk.ne_element hx hp
      (hk.coherent.eq_of_port (hk.old hx) hpk (Element.mem_portIds.2 (.inr hsx)) hs)
  · obtain ⟨y, hy, hty⟩ := h.target_mem hc
    exact hk.ne_element hy hp
      (hk.coherent.eq_of_port (hk.old hy) hpk (Element.mem_portIds.2 (.inl hty)) ht)

theorem touches_legs (hc : c ∈ p.legs) : touches p.element c = true := by
  rw [touches_iff, Element.mem_portIds, Element.mem_portIds]
  rcases Thread.mem_legs.1 hc with ⟨-, ht⟩ | ⟨hs, -⟩
  · exact .inr (.inl ht)
  · exact .inl (.inr hs)

theorem not_touches_legs (h : g.Coherent) (hk : Threaded g ts before after k) (hp : p ∈ ts)
    (hq : q ∈ ts) (hne : p.element ≠ q.element) (hc : c ∈ q.legs) :
    touches p.element c = false := by
  have hold := not_touches_old h hk hp (hk.connection_mem hq)
  have hport : ∀ r ∈ q.element.portIds, r ∉ p.element.portIds := fun r hr hrp =>
    hne (hk.coherent.eq_of_port (hk.element_mem hp) (hk.element_mem hq) hrp hr)
  rw [← Bool.not_eq_true, touches_iff] at hold ⊢
  rw [not_or] at hold ⊢
  rcases Thread.mem_legs.1 hc with ⟨hs, ht⟩ | ⟨hs, ht⟩
  · rw [hs]
    exact ⟨hold.1, hport _ (Element.mem_portIds.2 (.inl ht))⟩
  · rw [ht]
    exact ⟨hport _ (Element.mem_portIds.2 (.inr hs)), hold.2⟩

/-- One more identity, on a connection that runs through none. -/
theorem insertPseudoOn {l r : List Connection} (hk : Threaded g ts (l ++ c :: r) [] k) :
    Threaded g (ts ++ [⟨k.freshPseudo (k.portType c.source) .none, c⟩]) (l ++ r) []
      (k.insertPseudoOn c .none) := by
  have hc : c ∈ k.connections := hk.mem_connections.2 (.inl (by simp))
  refine ⟨insertPseudoOn_coherent hk.coherent c .none, ?_, ?_, ?_, ?_⟩
  · rw [elements_insertPseudoOn, hk.elements, List.map_append, List.append_assoc]
    rfl
  · have hn := hk.coherent.connectedOnce
    rw [connections_insertPseudoOn hk.coherent hc, hk.connections, List.append_nil]
    rw [hk.connections, List.append_nil, List.append_assoc, List.cons_append] at hn
    rw [List.append_assoc, List.cons_append,
      filter_ne_of_nodup (f := fun c : Connection => c) (by rwa [List.map_id'])]
    rw [List.append_nil, List.flatMap_append, ← List.append_assoc, ← List.append_assoc]
    rfl
  · refine List.Perm.trans ?_ hk.perm
    simp only [List.map_append, List.map_cons, List.map_nil, List.append_nil, List.append_assoc,
      List.cons_append]
    rw [← List.append_assoc r]
    exact (List.perm_append_singleton c _).append_left l
  · intro p hp
    rcases List.mem_append.1 hp with hp | hp
    · exact hk.identities p hp
    · rw [List.mem_singleton.1 hp]
      rfl

section TakeOut

variable (h : g.Coherent)

include h

/-- What begins or ends at one of the identities is one of the connections that it stands for. -/
theorem mem_legs_of_touches (hk : Threaded g ts before after k) (hp : p ∈ ts)
    (hc : c ∈ k.connections) (ht : touches p.element c = true) : c ∈ p.legs := by
  rcases hk.mem_connections.1 hc with hc | ⟨q, hq, hc⟩
  · rw [hk.not_touches_old h hp (hk.mem_of_mem_append hc)] at ht
    cases ht
  · by_cases heq : p.element = q.element
    · rwa [List.inj_on_of_nodup_map hk.elements_nodup hp hq heq]
    · rw [hk.not_touches_legs h hp hq heq hc] at ht
      cases ht

theorem incoming_eq (hk : Threaded g ts before after k) (hp : p ∈ ts) {a : PortId}
    (hin : p.element.inputIds = [a]) : k.incoming p.element.id = [⟨p.connection.source, a⟩] := by
  have hpk := hk.element_mem hp
  refine ((List.perm_ext_iff_of_nodup (incoming_nodup hk.coherent hpk)
    (List.nodup_singleton _)).2 fun c => ?_).eq_singleton
  rw [hk.coherent.mem_incoming hpk, List.mem_singleton]
  constructor
  · intro hmem
    obtain ⟨hc, ht⟩ := hmem
    have hlegs := hk.mem_legs_of_touches h hp hc
      (touches_iff.2 (.inr (Element.mem_portIds.2 (.inl ht))))
    rcases Thread.mem_legs.1 hlegs with ⟨hs, -⟩ | ⟨-, ht'⟩
    · rw [hin, List.mem_singleton] at ht
      rw [← hs, ← ht]
    · have hold := hk.not_touches_old h hp (hk.connection_mem hp)
      rw [touches_iff.2 (.inr (Element.mem_portIds.2 (.inl (ht' ▸ ht))))] at hold
      cases hold
  · intro heq
    subst heq
    have ha : a ∈ p.element.inputIds := by rw [hin]; exact List.mem_singleton_self a
    exact ⟨hk.mem_connections.2 (.inr ⟨p, hp, Thread.mem_legs.2 (.inl ⟨rfl, ha⟩)⟩), ha⟩

theorem outgoing_eq (hk : Threaded g ts before after k) (hp : p ∈ ts) {b : PortId}
    (hout : p.element.outputIds = [b]) :
    k.outgoing p.element.id = [⟨b, p.connection.target⟩] := by
  have hpk := hk.element_mem hp
  refine ((List.perm_ext_iff_of_nodup (outgoing_nodup hk.coherent hpk)
    (List.nodup_singleton _)).2 fun c => ?_).eq_singleton
  rw [hk.coherent.mem_outgoing hpk, List.mem_singleton]
  constructor
  · intro hmem
    obtain ⟨hc, hs⟩ := hmem
    have hlegs := hk.mem_legs_of_touches h hp hc
      (touches_iff.2 (.inl (Element.mem_portIds.2 (.inr hs))))
    rcases Thread.mem_legs.1 hlegs with ⟨hs', -⟩ | ⟨-, ht⟩
    · have hold := hk.not_touches_old h hp (hk.connection_mem hp)
      rw [touches_iff.2 (.inl (Element.mem_portIds.2 (.inr (hs' ▸ hs))))] at hold
      cases hold
    · rw [hout, List.mem_singleton] at hs
      rw [← hs, ← ht]
  · intro heq
    subst heq
    have hb : b ∈ p.element.outputIds := by rw [hout]; exact List.mem_singleton_self b
    exact ⟨hk.mem_connections.2 (.inr ⟨p, hp, Thread.mem_legs.2 (.inr ⟨hb, rfl⟩)⟩), hb⟩

theorem bridges_eq (hk : Threaded g ts before after k) (hp : p ∈ ts) :
    k.bridges p.element.id = [(p.connection.source, p.connection.target)] := by
  obtain ⟨a, b, hin, hout⟩ := Element.ports_of_isPseudo
    (hk.coherent.shaped _ (hk.element_mem hp)) (isPseudo_of_isIdentity (hk.identities p hp))
  rw [bridges, hk.incoming_eq h hp hin, hk.outgoing_eq h hp hout]
  rfl

theorem connections_removeElement (hk : Threaded g (p :: ts) before after k) :
    (k.removeElement p.element.id).connections = before ++ ts.flatMap (·.legs) ++ after := by
  have hp : p ∈ p :: ts := List.mem_cons_self
  have hold : ∀ l : List Connection, (∀ c ∈ l, c ∈ before ++ after) →
      l.filter (fun c => !touches p.element c) = l := by
    intro l hl
    refine List.filter_eq_self.2 fun c hc => ?_
    rw [hk.not_touches_old h hp (hk.mem_of_mem_append (hl c hc))]
    rfl
  have hnone : p.legs.filter (fun c => !touches p.element c) = [] :=
    List.filter_eq_nil_iff.2 fun c hc => by simp [touches_legs hc]
  have hothers : (ts.flatMap (·.legs)).filter (fun c => !touches p.element c)
      = ts.flatMap (·.legs) := by
    refine List.filter_eq_self.2 fun c hc => ?_
    obtain ⟨q, hq, hc⟩ := List.mem_flatMap.1 hc
    have hne : p.element ≠ q.element := fun heq =>
      (List.nodup_cons.1 hk.elements_nodup).1 (List.mem_map.2 ⟨q, hq, heq.symm⟩)
    rw [hk.not_touches_legs h hp (List.mem_cons_of_mem p hq) hne hc]
    rfl
  rw [removeElement_eq hk.coherent (hk.element_mem hp)]
  show k.connections.filter (fun c => !touches p.element c) = _
  rw [hk.connections, List.flatMap_cons, List.filter_append, List.filter_append,
    List.filter_append, hold before fun c hc => List.mem_append_left _ hc, hnone, hothers,
    hold after fun c hc => List.mem_append_right _ hc, List.nil_append]

theorem connection_not_mem (hk : Threaded g (p :: ts) before after k) :
    p.connection ∉ before ++ ts.flatMap (·.legs) ++ after := by
  have hp : p ∈ p :: ts := List.mem_cons_self
  have hn := hk.perm.nodup_iff.2 h.connectedOnce
  rw [List.append_assoc, (List.perm_append_comm_assoc before _ after).nodup_iff] at hn
  have hold : p.connection ∉ ts.map (·.connection) ++ (before ++ after) := (List.nodup_cons.1 hn).1
  intro hmem
  simp only [List.mem_append, List.mem_flatMap] at hmem
  rcases hmem with (hmem | ⟨q, hq, hmem⟩) | hmem
  · exact hold (List.mem_append_right _ (List.mem_append_left _ hmem))
  · have hnot := hk.not_touches_old h (List.mem_cons_of_mem p hq) (hk.connection_mem hp)
    rw [touches_legs hmem] at hnot
    cases hnot
  · exact hold (List.mem_append_right _ (List.mem_append_right _ hmem))

/-- The first of the identities is taken out. -/
theorem bypass (hk : Threaded g (p :: ts) before after k) :
    Threaded g ts before (after ++ [p.connection]) (k.bypass p.element.id) := by
  have hp : p ∈ p :: ts := List.mem_cons_self
  have hpk := hk.element_mem hp
  refine ⟨bypass_coherent hk.coherent hpk, ?_, ?_, ?_, fun q hq =>
    hk.identities q (List.mem_cons_of_mem p hq)⟩
  · have hids := hk.coherent.elementIds_nodup
    rw [elementIds, hk.elements, List.map_cons] at hids
    rw [FlowGraph.bypass, elements_connectAll, removeElement_eq hk.coherent hpk]
    show k.elements.filter _ = _
    rw [hk.elements, List.map_cons]
    exact filter_ne_of_nodup hids
  · have hback : ∀ x, x ∈ g.elements → x ∈ (k.removeElement p.element.id).elements := fun x hx =>
      (mem_removeElement hk.coherent hpk).2 ⟨hk.old hx, hk.ne_element hx hp⟩
    obtain ⟨x, hx, hs⟩ := h.source_mem (hk.connection_mem hp)
    obtain ⟨y, hy, ht⟩ := h.target_mem (hk.connection_mem hp)
    rw [FlowGraph.bypass, hk.bridges_eq h hp]
    show ((k.removeElement p.element.id).connect _ _).connections = _
    rw [connections_connect (isOutputPort_iff.2 ⟨x, hback x hx, hs⟩)
      (isInputPort_iff.2 ⟨y, hback y hy, ht⟩), hk.connections_removeElement h, List.append_assoc]
    rw [hk.connections_removeElement h]
    exact hk.connection_not_mem h
  · refine List.Perm.trans ?_ hk.perm
    rw [List.map_cons, List.append_assoc, List.append_assoc, List.cons_append,
      ← List.append_assoc (ts.map _)]
    exact (List.perm_append_singleton p.connection _).append_left before

end TakeOut

end Threaded
end FlowGraph
end FlowPlan
