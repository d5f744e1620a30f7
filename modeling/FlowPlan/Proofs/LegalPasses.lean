import FlowPlan.Proofs.Histories

/-!
Legal graphs stay legal on the way to the normal form.

An element that is put in or taken out breaks connections, and each of them is made up for by the
connections around the element.  That takes a connection on both sides of every pseudo element that
is taken out, and none from the element to itself.  The first holds because the ports of pseudo
elements are mandatory in every graph that has a history, the second because the graph has levels.
-/

namespace FlowPlan
namespace FlowGraph

open Relation

variable {g k : FlowGraph} {e x : Element} {p : PortId} {level : ElementId → Nat}

/-- A connection begins or ends at the port. -/
def Linked (g : FlowGraph) (p : PortId) : Prop := ∃ c ∈ g.connections, c.source = p ∨ c.target = p

theorem exists_source_of_linked (h : g.Coherent) (he : e ∈ g.elements) (hp : p ∈ e.inputIds)
    (hl : g.Linked p) : ∃ u, ⟨u, p⟩ ∈ g.connections := by
  obtain ⟨⟨u, d⟩, hc, rfl | rfl⟩ := hl
  · obtain ⟨y, hy, hs⟩ := h.source_mem hc
    exact absurd hs (h.not_mem_outputIds he hy hp)
  · exact ⟨u, hc⟩

theorem exists_target_of_linked (h : g.Coherent) (he : e ∈ g.elements) (hp : p ∈ e.outputIds)
    (hl : g.Linked p) : ∃ d, ⟨p, d⟩ ∈ g.connections := by
  obtain ⟨⟨u, d⟩, hc, rfl | rfl⟩ := hl
  · exact ⟨d, hc⟩
  · obtain ⟨y, hy, ht⟩ := h.target_mem hc
    exact absurd hp (h.not_mem_outputIds hy he ht)

/-! ## An element put in -/

/-- What stays is as linked as it was, and what is new is linked at all its ports. -/
def KeepsLinks (g k : FlowGraph) : Prop :=
  ∀ x ∈ k.elements, (x ∈ g.elements ∧ ∀ p ∈ x.portIds, g.Linked p → k.Linked p) ∨
    ∀ p ∈ x.portIds, k.Linked p

theorem IsConnected.of_keepsLinks (hg : g.IsConnected) (hk : KeepsLinks g k) : k.IsConnected := by
  intro x hx p hp hopt
  rcases hk x hx with ⟨hxg, hkeep⟩ | hnew
  · exact hkeep p.id (List.mem_map_of_mem hp) (hg x hxg p hp hopt)
  · exact hnew p.id (List.mem_map_of_mem hp)

theorem keepsLinks_of_putIn (helems : k.elements = g.elements ++ [x]) (hin : x.inputIds = [g.entry])
    (hout : x.outputIds = [g.exit]) (hold : ∀ p, g.Linked p → k.Linked p)
    (hentry : k.Linked g.entry) (hexit : k.Linked g.exit) : KeepsLinks g k := by
  intro y hy
  rw [helems, List.mem_append, List.mem_singleton] at hy
  rcases hy with hy | rfl
  · exact .inl ⟨hy, fun p _ => hold p⟩
  · refine .inr fun p hp => ?_
    rcases (Element.mem_portIds_of_single hin hout).1 hp with rfl | rfl
    · exact hentry
    · exact hexit

theorem insertPseudoOn_keepsLinks (h : g.Coherent) {c : Connection} (hc : c ∈ g.connections)
    (boundary : Boundary) : KeepsLinks g (g.insertPseudoOn c boundary) := by
  have hmem := fun c' => @mem_insertPseudoOn g c h hc boundary c'
  have hinto := (hmem _).2 (.inr (.inl rfl))
  have hfrom := (hmem _).2 (.inr (.inr rfl))
  refine keepsLinks_of_putIn (elements_insertPseudoOn g c boundary) rfl rfl (fun p hp => ?_)
    ⟨_, hinto, .inr rfl⟩ ⟨_, hfrom, .inl rfl⟩
  obtain ⟨c', hc', hend⟩ := hp
  by_cases heq : c' = c
  · subst heq
    rcases hend with rfl | rfl
    · exact ⟨_, hinto, .inl rfl⟩
    · exact ⟨_, hfrom, .inr rfl⟩
  · exact ⟨c', (hmem c').2 (.inl ⟨hc', heq⟩), hend⟩

theorem insertPseudoAfter_keepsLinks (h : g.Coherent) {c : Connection} (hc : c ∈ g.connections)
    (boundary : Boundary) : KeepsLinks g (g.insertPseudoAfter c.source boundary) := by
  have hmem := fun c' => mem_insertPseudoAfter h (h.joined c hc).1 boundary (c := c')
  have hinto := (hmem _).2 (.inr (.inl rfl))
  have hfrom : ∀ d, ⟨c.source, d⟩ ∈ g.connections →
      ⟨g.exit, d⟩ ∈ (g.insertPseudoAfter c.source boundary).connections :=
    fun d hd => (hmem ⟨g.exit, d⟩).2 (.inr (.inr ⟨rfl, hd⟩))
  refine keepsLinks_of_putIn (elements_insertPseudoAfter g c.source boundary) rfl rfl
    (fun p hp => ?_) ⟨_, hinto, .inr rfl⟩ ⟨_, hfrom c.target hc, .inl rfl⟩
  obtain ⟨⟨u, d⟩, hc', hend⟩ := hp
  by_cases hu : u = c.source
  · subst hu
    rcases hend with rfl | rfl
    · exact ⟨_, hinto, .inl rfl⟩
    · exact ⟨_, hfrom d hc', .inr rfl⟩
  · exact ⟨⟨u, d⟩, (hmem _).2 (.inl ⟨hc', hu⟩), hend⟩

/-! ## An element taken out -/

/-- Adding shares makes connections and breaks none. -/
theorem mem_connections_addShares_of_mem (name type : String)
    (pairs : List ((Connection × Connection) × Nat)) {c : Connection} (hc : c ∈ g.connections) :
    c ∈ (g.addShares name type pairs).connections := by
  induction pairs generalizing g with
  | nil => exact hc
  | cons pair pairs ih =>
    obtain ⟨⟨i, o⟩, n⟩ := pair
    exact ih (mem_connect.2 (.inl (mem_connect.2 (.inl hc))))

theorem mem_addShares (h : g.Coherent) (name type : String)
    (pairs : List ((Connection × Connection) × Nat))
    (hpairs : ∀ pair ∈ pairs, pair.1.1 ∈ g.connections ∧ pair.1.2 ∈ g.connections)
    (hx : x ∈ (g.addShares name type pairs).elements) :
    x ∈ g.elements ∨ ∃ pair ∈ pairs, ∃ s t, x.inputIds = [s] ∧ x.outputIds = [t] ∧
      ⟨pair.1.1.source, s⟩ ∈ (g.addShares name type pairs).connections ∧
        ⟨t, pair.1.2.target⟩ ∈ (g.addShares name type pairs).connections := by
  induction pairs generalizing g with
  | nil => exact .inl hx
  | cons pair pairs ih =>
    obtain ⟨⟨i, o⟩, n⟩ := pair
    obtain ⟨hi, ho⟩ := hpairs _ List.mem_cons_self
    have hmem := fun c => mem_addShare h hi ho name type n (c := c)
    have hrest := ih (addShare_coherent h name type _)
      (fun pair hp => (hpairs pair (List.mem_cons_of_mem _ hp)).imp
        (fun hc => (hmem _).2 (.inl hc)) fun hc => (hmem _).2 (.inl hc)) hx
    rcases hrest with hx | ⟨pair, hp, hshare⟩
    · rw [elements_addShare, List.mem_append, List.mem_singleton] at hx
      refine hx.imp_right fun heq => ⟨_, List.mem_cons_self, g.entry, g.exit, ?_⟩
      subst heq
      exact ⟨rfl, rfl,
        mem_connections_addShares_of_mem name type pairs ((hmem _).2 (.inr (.inl rfl))),
        mem_connections_addShares_of_mem name type pairs ((hmem _).2 (.inr (.inr rfl)))⟩
    · exact .inr ⟨pair, List.mem_cons_of_mem _ hp, hshare⟩

/-- A way into an element and one out of it, both from or to elsewhere. -/
structure Passes (g : FlowGraph) (e : Element) (i o : Connection) : Prop where
  into : i ∈ g.connections ∧ i.target ∈ e.inputIds
  outOf : o ∈ g.connections ∧ o.source ∈ e.outputIds
  fromElsewhere : i.source ∉ e.outputIds
  toElsewhere : o.target ∉ e.inputIds

/-- The connections of a share stay when the identity goes. -/
theorem Passes.share_kept {i o : Connection} {y : Element} {s t : PortId} (hw : g.Passes e i o)
    (hk : k.Coherent) (he : e ∈ k.elements) (hy : y ∈ k.elements) (hne : y ≠ e)
    (hin : y.inputIds = [s]) (hout : y.outputIds = [t]) (hs : ⟨i.source, s⟩ ∈ k.connections)
    (ht : ⟨t, o.target⟩ ∈ k.connections) :
    ⟨i.source, s⟩ ∈ (k.removeElement e.id).connections ∧
      ⟨t, o.target⟩ ∈ (k.removeElement e.id).connections := by
  have hse : s ∉ e.inputIds := fun hse =>
    hne (hk.eq_of_input hy he (hin ▸ List.mem_singleton_self s) hse)
  have hte : t ∉ e.outputIds := fun hte =>
    hne (hk.eq_of_output hy he (hout ▸ List.mem_singleton_self t) hte)
  exact ⟨(mem_connections_removeElement hk he).2 ⟨hs, hw.fromElsewhere, hse⟩,
    (mem_connections_removeElement hk he).2 ⟨ht, hte, hw.toElsewhere⟩⟩

section TakeOut

variable (h : g.Coherent) (hl : g.IsLevelling level) (he : e ∈ g.elements)
include h hl he

/-- No element of a graph with levels is connected with itself. -/
theorem passes_of_mem_throughputs {i o : Connection} (hw : (i, o) ∈ g.throughputs e.id) :
    g.Passes e i o := by
  obtain ⟨⟨hi, ht⟩, ho, hs⟩ := (mem_throughputs h he).1 hw
  refine ⟨⟨hi, ht⟩, ⟨ho, hs⟩, fun hloop => ?_, fun hloop => ?_⟩
  · exact Nat.lt_irrefl _ (hl e he e he ⟨i, hi, hloop, ht⟩)
  · exact Nat.lt_irrefl _ (hl e he e he ⟨o, ho, hs, hloop⟩)

variable (hi : e.isIdentity = true) (hlinked : ∀ p ∈ e.portIds, g.Linked p)
include hi hlinked

/-- A port elsewhere is linked past the element, or by a way through it. -/
theorem linked_around (hx : x ∈ g.elements) (hne : x ≠ e) (hp : p ∈ x.portIds)
    (hlink : g.Linked p) :
    (∃ c ∈ g.connections, (c.source = p ∨ c.target = p) ∧ c.source ∉ e.outputIds ∧
      c.target ∉ e.inputIds) ∨
    ∃ i o, g.Passes e i o ∧ (i.source = p ∨ o.target = p) := by
  have hpe : p ∉ e.portIds := fun hpe => hne (h.eq_of_port hx he hp hpe)
  obtain ⟨a, b, hin, hout⟩ := Element.ports_of_isPseudo (h.shaped e he) (isPseudo_of_isIdentity hi)
  have ha : a ∈ e.inputIds := hin ▸ List.mem_singleton_self a
  have hb : b ∈ e.outputIds := hout ▸ List.mem_singleton_self b
  have hthrough : ∀ i o, i ∈ g.connections ∧ i.target ∈ e.inputIds →
      o ∈ g.connections ∧ o.source ∈ e.outputIds → g.Passes e i o := fun i o hinto houtof =>
    passes_of_mem_throughputs h hl he ((mem_throughputs h he).2 ⟨hinto, houtof⟩)
  obtain ⟨c, hc, hend⟩ := hlink
  by_cases hs : c.source ∈ e.outputIds
  · obtain ⟨u, hu⟩ := exists_source_of_linked h he ha (hlinked a (Element.mem_portIds.2 (.inl ha)))
    have ht := hend.resolve_left fun heq => hpe (heq ▸ Element.mem_portIds.2 (.inr hs))
    exact .inr ⟨_, c, hthrough _ c ⟨hu, ha⟩ ⟨hc, hs⟩, .inr ht⟩
  · by_cases ht : c.target ∈ e.inputIds
    · obtain ⟨d, hd⟩ :=
        exists_target_of_linked h he hb (hlinked b (Element.mem_portIds.2 (.inr hb)))
      have hs := hend.resolve_right fun heq => hpe (heq ▸ Element.mem_portIds.2 (.inl ht))
      exact .inr ⟨c, _, hthrough c _ ⟨hc, ht⟩ ⟨hd, hb⟩, .inl hs⟩
    · exact .inl ⟨c, hc, hend, hs, ht⟩

theorem bypass_keepsLinks : KeepsLinks g (g.bypass e.id) := by
  intro x hx
  obtain ⟨hx, hne⟩ := (mem_elements_bypass h he).1 hx
  refine .inl ⟨hx, fun p hp hlink => ?_⟩
  rcases linked_around h hl he hi hlinked hx hne hp hlink with
    ⟨c, hc, hend, hs, ht⟩ | ⟨i, o, hw, hend⟩
  · exact ⟨c, (mem_bypass h he).2 ⟨.inl hc, hs, ht⟩, hend⟩
  · exact ⟨⟨i.source, o.target⟩, (mem_bypass h he).2
      ⟨.inr ⟨⟨i.target, hw.into.2, hw.into.1⟩, o.source, hw.outOf.2, hw.outOf.1⟩,
        hw.fromElsewhere, hw.toElsewhere⟩, hend⟩

theorem splitIdentity_keepsLinks : KeepsLinks g (g.splitIdentity e.id) := by
  let type := ((g.inputsOf e.id).head?.map (·.type)).getD ""
  let pairs := (g.throughputs e.id).zipIdx 1
  have hpairs := fun pair (hpair : pair ∈ pairs) => List.fst_mem_of_mem_zipIdx hpair
  have hmem := fun pair (hpair : pair ∈ pairs) => (mem_throughputs h he).1 (hpairs pair hpair)
  have hany : ∀ y : Element, (fun _ => True) y := fun _ => trivial
  have hshares := (addShares_spec h he (hany e) (fun y _ => hany y) (g.nameOf e.id) type pairs
    hmem).2.1
  have hk := addShares_coherent h (g.nameOf e.id) type pairs
  have hek := mem_addShares_of_mem (g.nameOf e.id) type pairs he
  intro x hx
  rw [splitIdentity_eq] at hx ⊢
  obtain ⟨hx, hne⟩ := (mem_removeElement hk hek).1 hx
  rcases mem_addShares h (g.nameOf e.id) type pairs
    (fun pair hpair => ⟨(hmem pair hpair).1.1, (hmem pair hpair).2.1⟩) hx with
    hxg | ⟨pair, hpair, s, t, hin, hout, hs, ht⟩
  · refine .inl ⟨hxg, fun p hp hlink => ?_⟩
    rcases linked_around h hl he hi hlinked hxg hne hp hlink with
      ⟨c, hc, hend, hs, ht⟩ | ⟨i, o, hw, hend⟩
    · exact ⟨c, (mem_connections_removeElement hk hek).2
        ⟨mem_connections_addShares_of_mem _ _ _ hc, hs, ht⟩, hend⟩
    · have hio : (i, o) ∈ pairs.map (·.1) := by
        rw [List.zipIdx_map_fst]
        exact (mem_throughputs h he).2 ⟨hw.into, hw.outOf⟩
      obtain ⟨⟨_, n⟩, hpair, rfl⟩ := List.mem_map.1 hio
      obtain ⟨y, hy, hyne, -, s, t, hin, hout, hs, ht⟩ := hshares _ hpair
      obtain ⟨hs, ht⟩ := hw.share_kept hk hek hy hyne hin hout hs ht
      exact hend.elim (fun heq => ⟨_, hs, .inl heq⟩) fun heq => ⟨_, ht, .inr heq⟩
  · have hw := passes_of_mem_throughputs h hl he (hpairs pair hpair)
    obtain ⟨hs, ht⟩ := hw.share_kept hk hek hx hne hin hout hs ht
    refine .inr fun p hp => ?_
    rcases (Element.mem_portIds_of_single hin hout).1 hp with rfl | rfl
    · exact ⟨_, hs, .inr rfl⟩
    · exact ⟨_, ht, .inl rfl⟩

end TakeOut

theorem LocalChange.keepsLinks (h : g.Coherent) (hl : g.IsLevelling level)
    (hlinked : ∀ e ∈ g.elements, e.isPseudo = true → ∀ p ∈ e.portIds, g.Linked p)
    (hs : LocalChange g k) : KeepsLinks g k := by
  cases hs with
  | insertOn hc boundary => exact insertPseudoOn_keepsLinks h hc boundary
  | insertAfter hc boundary => exact insertPseudoAfter_keepsLinks h hc boundary
  | split he hi =>
    exact splitIdentity_keepsLinks h hl he hi (hlinked _ he (isPseudo_of_isIdentity hi))
  | bypass he hi => exact bypass_keepsLinks h hl he hi (hlinked _ he (isPseudo_of_isIdentity hi))

/-! ## Legal flat graphs -/

/-- A legal graph without parts, whose pseudo elements have mandatory ports. -/
structure IsClean (g : FlowGraph) : Prop where
  flat : g.isFlat = true
  connected : g.IsConnected
  mandatory : ∀ e ∈ g.elements, e.isPseudo = true → ∀ p ∈ e.ports, p.optional = false
  levels : ∃ level, g.IsLevelling level

/-- What the check accepts: all that has to be connected is, pseudo elements on both sides, and no
element feeds itself through others. -/
structure IsAccepted (g : FlowGraph) : Prop where
  legal : g.isLegal = true
  connected : g.IsConnected
  pseudos : ∀ e ∈ g.elements, e.isPseudo = true → ∀ p ∈ e.portIds, g.Linked p
  acyclic : ∀ i, ¬ TransGen (fun i j => j ∈ g.successors i) i i

namespace IsClean

variable (hc : g.IsClean)
include hc

theorem linked (he : e ∈ g.elements) (hp : e.isPseudo = true) : ∀ p ∈ e.portIds, g.Linked p := by
  intro p hmem
  obtain ⟨q, hq, rfl⟩ := List.mem_map.1 hmem
  exact hc.connected e he q hq (hc.mandatory e he hp q hq)

theorem of_localChange (h : g.Coherent) (hs : LocalChange g k) : k.IsClean := by
  obtain ⟨level, hl⟩ := hc.levels
  have hkept := hs.keepsLinks h hl fun e he hp => hc.linked he hp
  refine ⟨hs.isFlat h hc.flat, hc.connected.of_keepsLinks hkept, fun x hx hp => ?_,
    hs.exists_levelling h hc.levels⟩
  rcases (Evolves.of_localChange hs).elements x hx with ⟨y, hy, hr⟩ | hnew
  · rw [hr.ports]
    exact hc.mandatory y hy (by rwa [Element.isPseudo, ← hr.kind])
  · exact hnew.mandatory hp

theorem of_rewrites (h : g.Coherent) (hs : Rewrites g k) : k.IsClean :=
  (hs.induction (fun _ _ hg hstep hclean => hclean.of_localChange hg hstep) h hc).2

theorem isAccepted (h : g.WellFormed) : g.IsAccepted := by
  obtain ⟨level, hl⟩ := hc.levels
  have hcycles := hl.cycles_eq_nil h.coherent
  refine ⟨?_, hc.connected, fun e he hp => hc.linked he hp,
    (cycles_eq_nil_iff h.coherent).1 hcycles⟩
  have hlevels : ∀ k, g.Holds k → k.IsSoundLevel := by
    intro k hk
    cases hk with
    | itself =>
      exact ⟨hc.connected, fun e he _ hk => absurd hk (kind_ne_flowPart_of_isFlat hc.flat he)⟩
    | inPart he hk _ => exact absurd hk (kind_ne_flowPart_of_isFlat hc.flat he)
  rw [isLegal, List.isEmpty_iff, faults, (structureFaults_eq_nil_iff h "").2 hlevels,
    Legality.cycleFaults, flatten_of_isFlat hc.flat]
  exact (congrArg _ hcycles : _ = List.map _ [])

end IsClean

theorem isClean_of_isLegal (h : g.WellFormed)
    (hmandatory : ∀ e ∈ g.elements, e.isPseudo = true → ∀ p ∈ e.ports, p.optional = false)
    (hflat : g.isFlat = true) (hlegal : g.isLegal = true) : g.IsClean := by
  rw [isLegal, List.isEmpty_iff, faults, List.append_eq_nil_iff, structureFaults_eq_nil_iff h,
    Legality.cycleFaults, List.map_eq_nil_iff, flatten_of_isFlat hflat] at hlegal
  exact ⟨hflat, (hlegal.1 g (.itself g)).connected, hmandatory,
    exists_levelling h.coherent hlegal.2⟩

/-- In every graph that has a history, pseudo elements have to be connected on both sides. -/
theorem mandatory_of_editAll? {edits : List Edit} (hg : empty.editAll? edits = some g) :
    ∀ e ∈ g.elements, e.isPseudo = true → ∀ p ∈ e.ports, p.optional = false := by
  intro e he hp
  rcases (editAll?_evolves empty_wellFormed hg).elements e he with ⟨x, hx, -⟩ | hnew
  · cases hx
  · exact hnew.mandatory hp

/-- Checkpoints, identities, shares and reductions each leave a graph that is accepted, if there was
one and no part of it is left to flatten. -/
theorem passes_keep_legal (edits : List Edit) (hg : empty.editAll? edits = some g)
    (hflat : g.isFlat = true) (hlegal : g.isLegal = true) :
    g.insertCheckpoints.1.IsAccepted ∧ g.insertCheckpoints.1.insertIdentities.1.IsAccepted ∧
      g.insertCheckpoints.1.insertIdentities.1.splitIdentities.1.IsAccepted ∧
      g.insertCheckpoints.1.insertIdentities.1.splitIdentities.1.reduceIdentities.1.IsAccepted := by
  have h := editAll?_wellFormed empty_wellFormed edits hg
  have hclean := isClean_of_isLegal h (mandatory_of_editAll? hg) hflat hlegal
  have hcheck := insertCheckpoints_rewrites h.coherent
  have hmap := hcheck.trans (insertIdentities_rewrites (Rewrites.coherent h.coherent hcheck))
  have hsplit := hmap.trans (splitIdentities_rewrites (Rewrites.coherent h.coherent hmap))
  have hreduce := hsplit.trans (reduceIdentities_rewrites (Rewrites.coherent h.coherent hsplit))
  have haccepted : ∀ {k}, Rewrites g k → k.IsAccepted := fun hs =>
    (hclean.of_rewrites h.coherent hs).isAccepted (Rewrites.wellFormed h hs)
  exact ⟨haccepted hcheck, haccepted hmap, haccepted hsplit, haccepted hreduce⟩

/-- Two shuffles in a row, a stage head, and an identity between two senders and two receivers. -/
def relayEdits : List Edit :=
  let desc (name kind : String) : OperatorDesc := { name, kind, resources := [] }
  let key : PortDecl := { PortDecl.plain "in" "Record" with key := some ⟨["key"], []⟩ }
  [.input "a" "Record", .input "b" "Record", .pseudo "relay" "Record" .none,
    .operator "r" (desc "r" "fold") [key] [.plain "out" "Record"] .shuffle,
    .operator "s" (desc "s" "fold") [key] [.plain "out" "Record"] .shuffle,
    .operator "head" (desc "head" "update") [.plain "in" "Record"] [.plain "out" "Record"] .stage,
    .output "z" "Record", .connect 0 2, .connect 1 2, .connect 3 4, .connect 3 8, .connect 5 6,
    .connect 7 10, .connect 9 10]

set_option maxRecDepth 10000 in
theorem relay_stays_legal : ∃ g, empty.editAll? relayEdits = some g ∧
    (g.isFlat = true ∧ g.isLegal = true) ∧
    g.insertCheckpoints.1.IsAccepted ∧ g.insertCheckpoints.1.insertIdentities.1.IsAccepted ∧
      g.insertCheckpoints.1.insertIdentities.1.splitIdentities.1.IsAccepted ∧
      g.insertCheckpoints.1.insertIdentities.1.splitIdentities.1.reduceIdentities.1.IsAccepted := by
  have hflat : ((empty.editAll? relayEdits).any isFlat) = true := by decide +kernel
  have hlegal : ((empty.editAll? relayEdits).any isLegal) = true := by decide +kernel
  exact ⟨_, rfl, ⟨hflat, hlegal⟩, passes_keep_legal relayEdits rfl hflat hlegal⟩

end FlowGraph
end FlowPlan
