import FlowPlan.NormalForm.Identities
import FlowPlan.Proofs.Edits

/-!
The changes around one connection, port or element: what connections they leave, and that they keep
a graph coherent.

A pseudo element that is put in has the next two port numbers, so `entry g` and `exit g` name its
ports before it is there.
-/

namespace FlowPlan
namespace FlowGraph

variable {g : FlowGraph}

/-! ## The ports of the next pseudo element -/

def entry (g : FlowGraph) : PortId := g.ids.nextPort

def exit (g : FlowGraph) : PortId := g.ids.nextPort + 1

theorem inputIds_numbered_pseudo (g : FlowGraph) (name type : String) (boundary : Boundary) :
    (g.numbered (.pseudo name type boundary)).inputIds = [g.entry] := rfl

theorem outputIds_numbered_pseudo (g : FlowGraph) (name type : String) (boundary : Boundary) :
    (g.numbered (.pseudo name type boundary)).outputIds = [g.exit] := rfl

theorem isOutputPort_add_pseudo {name type : String} {boundary : Boundary} {p : PortId} :
    (g.add (.pseudo name type boundary)).isOutputPort p = true ↔
      g.isOutputPort p = true ∨ p = g.exit := by
  rw [isOutputPort_add, outputIds_numbered_pseudo, List.mem_singleton]

theorem isInputPort_add_pseudo {name type : String} {boundary : Boundary} {p : PortId} :
    (g.add (.pseudo name type boundary)).isInputPort p = true ↔
      g.isInputPort p = true ∨ p = g.entry := by
  rw [isInputPort_add, inputIds_numbered_pseudo, List.mem_singleton]

namespace Coherent

theorem port_lt (h : g.Coherent) {e : Element} {p : PortId} (he : e ∈ g.elements)
    (hp : p ∈ e.portIds) : p < g.entry := h.portsBelow e he p hp

theorem source_lt (h : g.Coherent) {c : Connection} (hc : c ∈ g.connections) :
    c.source < g.entry := by
  obtain ⟨e, he, hp⟩ := h.source_mem hc
  exact h.port_lt he (Element.mem_portIds.2 (.inr hp))

theorem target_lt (h : g.Coherent) {c : Connection} (hc : c ∈ g.connections) :
    c.target < g.entry := by
  obtain ⟨e, he, hp⟩ := h.target_mem hc
  exact h.port_lt he (Element.mem_portIds.2 (.inl hp))

theorem lt_of_isOutputPort (h : g.Coherent) {p : PortId} (hp : g.isOutputPort p = true) :
    p < g.entry := by
  obtain ⟨e, he, hp⟩ := isOutputPort_iff.1 hp
  exact h.port_lt he (Element.mem_portIds.2 (.inr hp))

end Coherent

theorem lt_exit {p : PortId} (h : p < g.entry) : p < g.exit := Nat.lt_succ_of_lt h

/-! ## A pseudo element on a connection -/

/-- The pseudo element that is put in when records of a type are to pass through one. -/
def freshPseudo (g : FlowGraph) (type : String) (boundary : Boundary) : Element :=
  let label := if boundary = .stage then "checkpoint" else "identity"
  g.numbered (.pseudo s!"{label}#{g.ids.nextElement}" type boundary)

theorem addFreshPseudo_coherent (h : g.Coherent) (type : String) (boundary : Boundary) :
    (g.addFreshPseudo type boundary).Coherent :=
  add_coherent h (ElementDecl.pseudo_shaped _ type boundary)

section InsertOn

variable {c : Connection}

theorem elements_insertPseudoOn (g : FlowGraph) (c : Connection) (boundary : Boundary) :
    (g.insertPseudoOn c boundary).elements
      = g.elements ++ [g.freshPseudo (g.portType c.source) boundary] := by
  rw [insertPseudoOn, elements_connect, elements_connect]
  rfl

theorem insertPseudoOn_coherent (h : g.Coherent) (c : Connection) (boundary : Boundary) :
    (g.insertPseudoOn c boundary).Coherent :=
  connect_coherent (connect_coherent (disconnect_coherent (addFreshPseudo_coherent h _ _) _ _) _ _)
    _ _

/-- The connection is replaced by one into the new element and one out of it. -/
theorem mem_insertPseudoOn (h : g.Coherent) (hc : c ∈ g.connections) (boundary : Boundary)
    {c' : Connection} :
    c' ∈ (g.insertPseudoOn c boundary).connections ↔
      (c' ∈ g.connections ∧ c' ≠ c) ∨ c' = ⟨c.source, g.entry⟩ ∨ c' = ⟨g.exit, c.target⟩ := by
  have hsource : (g.addFreshPseudo (g.portType c.source) boundary).isOutputPort c.source = true :=
    isOutputPort_add_pseudo.2 (.inl (h.joined c hc).1)
  have hentry : (g.addFreshPseudo (g.portType c.source) boundary).isInputPort g.entry = true :=
    isInputPort_add_pseudo.2 (.inr rfl)
  have hexit : (g.addFreshPseudo (g.portType c.source) boundary).isOutputPort g.exit = true :=
    isOutputPort_add_pseudo.2 (.inr rfl)
  have htarget : (g.addFreshPseudo (g.portType c.source) boundary).isInputPort c.target = true :=
    isInputPort_add_pseudo.2 (.inl (h.joined c hc).2)
  rw [insertPseudoOn, mem_connect, mem_connect, isOutputPort_congr (elements_connect _ _ _),
    isInputPort_congr (elements_connect _ _ _), mem_disconnect, or_assoc]
  refine or_congr Iff.rfl (or_congr ?_ ?_)
  · exact ⟨And.left, fun heq => ⟨heq, hsource, hentry⟩⟩
  · exact ⟨And.left, fun heq => ⟨heq, hexit, htarget⟩⟩

end InsertOn

/-! ## A pseudo element behind a port -/

section Move

/-- Take up the connections of one port at another. -/
def moveTargets (g : FlowGraph) (p x : PortId) (ds : List PortId) : FlowGraph :=
  ds.foldl (fun g d => (g.disconnect p d).connect x d) g

variable {p x : PortId}

theorem elements_moveTargets (g : FlowGraph) (p x : PortId) (ds : List PortId) :
    (g.moveTargets p x ds).elements = g.elements := by
  induction ds generalizing g with
  | nil => rfl
  | cons d ds ih => exact (ih _).trans (elements_connect _ _ _)

theorem moveTargets_coherent (h : g.Coherent) (p x : PortId) (ds : List PortId) :
    (g.moveTargets p x ds).Coherent := by
  induction ds generalizing g with
  | nil => exact h
  | cons d ds ih => exact ih (connect_coherent (disconnect_coherent h p d) x d)

theorem mem_moveTargets (hne : x ≠ p) (hx : g.isOutputPort x = true) {ds : List PortId}
    (hds : ∀ d ∈ ds, g.isInputPort d = true) {c : Connection} :
    c ∈ (g.moveTargets p x ds).connections ↔
      (c ∈ g.connections ∧ ¬ (c.source = p ∧ c.target ∈ ds)) ∨ (c.source = x ∧ c.target ∈ ds) := by
  induction ds generalizing g with
  | nil => simp [moveTargets]
  | cons d ds ih =>
    have helems : ((g.disconnect p d).connect x d).elements = g.elements := elements_connect _ _ _
    show c ∈ (((g.disconnect p d).connect x d).moveTargets p x ds).connections ↔ _
    rw [ih (by rw [isOutputPort_congr helems]; exact hx)
      (fun d' hd' => by rw [isInputPort_congr helems]; exact hds d' (List.mem_cons_of_mem d hd'))]
    have hd : g.isInputPort d = true := hds d List.mem_cons_self
    rw [mem_connect, mem_disconnect]
    obtain ⟨s, t⟩ := c
    have hx' : (g.disconnect p d).isOutputPort x = true := hx
    have hd' : (g.disconnect p d).isInputPort d = true := hd
    simp only [Connection.mk.injEq, hx', hd', and_true, List.mem_cons, ne_eq]
    by_cases hs : s = p <;> by_cases ht : t = d <;> grind

end Move

section InsertAfter

variable {p : PortId}

theorem insertPseudoAfter_eq (g : FlowGraph) (p : PortId) (boundary : Boundary) :
    g.insertPseudoAfter p boundary
      = ((g.addFreshPseudo (g.portType p) boundary).moveTargets p g.exit (g.opposites p)).connect
        p g.entry := rfl

theorem elements_insertPseudoAfter (g : FlowGraph) (p : PortId) (boundary : Boundary) :
    (g.insertPseudoAfter p boundary).elements
      = g.elements ++ [g.freshPseudo (g.portType p) boundary] := by
  rw [insertPseudoAfter_eq, elements_connect, elements_moveTargets]
  rfl

theorem insertPseudoAfter_coherent (h : g.Coherent) (p : PortId) (boundary : Boundary) :
    (g.insertPseudoAfter p boundary).Coherent :=
  connect_coherent (moveTargets_coherent (addFreshPseudo_coherent h _ _) _ _ _) _ _

/-- The port feeds the new element alone, and the new element what the port fed. -/
theorem mem_insertPseudoAfter (h : g.Coherent) (hp : g.isOutputPort p = true)
    (boundary : Boundary) {c : Connection} :
    c ∈ (g.insertPseudoAfter p boundary).connections ↔
      (c ∈ g.connections ∧ c.source ≠ p) ∨ c = ⟨p, g.entry⟩
        ∨ (c.source = g.exit ∧ ⟨p, c.target⟩ ∈ g.connections) := by
  have hport : (g.addFreshPseudo (g.portType p) boundary).isOutputPort p = true :=
    isOutputPort_add_pseudo.2 (.inl hp)
  have hentry : (g.addFreshPseudo (g.portType p) boundary).isInputPort g.entry = true :=
    isInputPort_add_pseudo.2 (.inr rfl)
  have hexit : (g.addFreshPseudo (g.portType p) boundary).isOutputPort g.exit = true :=
    isOutputPort_add_pseudo.2 (.inr rfl)
  have hne : g.exit ≠ p := Nat.ne_of_gt (lt_exit (h.lt_of_isOutputPort hp))
  have hopp : ∀ d ∈ g.opposites p,
      (g.addFreshPseudo (g.portType p) boundary).isInputPort d = true := fun d hd =>
    isInputPort_add_pseudo.2 (.inl (h.joined _ ((h.mem_opposites hp).1 hd)).2)
  rw [insertPseudoAfter_eq, mem_connect, mem_moveTargets hne hexit hopp,
    isOutputPort_congr (elements_moveTargets _ _ _ _),
    isInputPort_congr (elements_moveTargets _ _ _ _), h.mem_opposites hp]
  have hleft : c ∈ g.connections ∧ ¬ (c.source = p ∧ ⟨p, c.target⟩ ∈ g.connections) ↔
      c ∈ g.connections ∧ c.source ≠ p := by
    refine and_congr_right fun hc => not_congr ⟨And.left, ?_⟩
    intro heq
    subst heq
    exact ⟨rfl, hc⟩
  show ((c ∈ g.connections ∧ _) ∨ _) ∨ _ ↔ _
  rw [hleft, or_assoc]
  refine or_congr_right (Iff.trans or_comm (or_congr_left ?_))
  exact ⟨And.left, fun heq => ⟨heq, hport, hentry⟩⟩

end InsertAfter

/-! ## An element taken out -/

section Bypass

variable {e : Element}

theorem mem_bridges (h : g.Coherent) (he : e ∈ g.elements) {u d : PortId} :
    (u, d) ∈ g.bridges e.id ↔
      (∃ a ∈ e.inputIds, ⟨u, a⟩ ∈ g.connections) ∧ ∃ b ∈ e.outputIds, ⟨b, d⟩ ∈ g.connections := by
  simp only [bridges, List.mem_flatMap, List.mem_map, h.mem_incoming he, h.mem_outgoing he,
    Prod.mk.injEq]
  constructor
  · intro hmem
    obtain ⟨i, ⟨hi, ht⟩, o, ⟨ho, hs⟩, rfl, rfl⟩ := hmem
    exact ⟨⟨i.target, ht, hi⟩, o.source, hs, ho⟩
  · intro hmem
    obtain ⟨⟨a, ha, hi⟩, b, hb, ho⟩ := hmem
    exact ⟨⟨u, a⟩, ⟨hi, ha⟩, ⟨b, d⟩, ⟨ho, hb⟩, rfl, rfl⟩

theorem mem_elements_bypass (h : g.Coherent) (he : e ∈ g.elements) {x : Element} :
    x ∈ (g.bypass e.id).elements ↔ x ∈ g.elements ∧ x ≠ e := by
  rw [bypass, elements_connectAll]
  exact mem_removeElement h he

theorem bypass_coherent (h : g.Coherent) (he : e ∈ g.elements) : (g.bypass e.id).Coherent :=
  connectAll_coherent (removeElement_coherent h he) _

/-- Connections away from the element stay, and everything that fed it is connected to everything
that it fed. -/
theorem mem_bypass (h : g.Coherent) (he : e ∈ g.elements) {u d : PortId} :
    ⟨u, d⟩ ∈ (g.bypass e.id).connections ↔
      (⟨u, d⟩ ∈ g.connections ∨ (∃ a ∈ e.inputIds, ⟨u, a⟩ ∈ g.connections)
        ∧ ∃ b ∈ e.outputIds, ⟨b, d⟩ ∈ g.connections)
      ∧ u ∉ e.outputIds ∧ d ∉ e.inputIds := by
  rw [bypass, mem_connectAll, mem_connections_removeElement h he, mem_bridges h he,
    isOutputPort_removeElement h he, isInputPort_removeElement h he, or_and_right]
  refine or_congr Iff.rfl (and_congr_right ?_)
  intro hmem
  obtain ⟨⟨a, _, hi⟩, b, _, ho⟩ := hmem
  exact ⟨fun ⟨⟨_, hu⟩, _, hd⟩ => ⟨hu, hd⟩,
    fun ⟨hu, hd⟩ => ⟨⟨(h.joined _ hi).1, hu⟩, (h.joined _ ho).2, hd⟩⟩

end Bypass

/-! ## An identity replaced by shares of it -/

section Shares

variable {name type : String} {i o : Connection}

/-- The copy of an identity for one pair of connections. -/
def share (g : FlowGraph) (name type : String) (n : Nat) : Element :=
  g.numbered (.pseudo s!"{name}~{n}" type .none)

theorem share_isIdentity (g : FlowGraph) (name type : String) (n : Nat) :
    (g.share name type n).isIdentity = true := rfl

theorem elements_addShare (g : FlowGraph) (name type : String)
    (pair : (Connection × Connection) × Nat) :
    (addShare name type g pair).elements = g.elements ++ [g.share name type pair.2] := by
  obtain ⟨⟨i, o⟩, n⟩ := pair
  rw [addShare, elements_connect, elements_connect]
  rfl

theorem addShare_coherent (h : g.Coherent) (name type : String)
    (pair : (Connection × Connection) × Nat) : (addShare name type g pair).Coherent := by
  obtain ⟨⟨i, o⟩, n⟩ := pair
  exact connect_coherent (connect_coherent
    (add_coherent h (ElementDecl.pseudo_shaped _ type .none)) _ _) _ _

/-- A share is one more way from what the first connection comes from to what the second one leads
to. -/
theorem mem_addShare (h : g.Coherent) (hi : i ∈ g.connections) (ho : o ∈ g.connections)
    (name type : String) (n : Nat) {c : Connection} :
    c ∈ (addShare name type g ((i, o), n)).connections ↔
      c ∈ g.connections ∨ c = ⟨i.source, g.entry⟩ ∨ c = ⟨g.exit, o.target⟩ := by
  rw [addShare, mem_connect, mem_connect, isOutputPort_congr (elements_connect _ _ _),
    isInputPort_congr (elements_connect _ _ _), isOutputPort_add_pseudo, isInputPort_add_pseudo,
    isOutputPort_add_pseudo, isInputPort_add_pseudo, or_assoc]
  refine or_congr_right (or_congr ⟨And.left, fun heq => ?_⟩ ⟨And.left, fun heq => ?_⟩)
  · exact ⟨heq, .inl (h.joined i hi).1, .inr rfl⟩
  · exact ⟨heq, .inr rfl, .inl (h.joined o ho).2⟩

/-- One share for each of some pairs of connections. -/
def addShares (g : FlowGraph) (name type : String)
    (pairs : List ((Connection × Connection) × Nat)) : FlowGraph :=
  pairs.foldl (addShare name type) g

theorem splitIdentity_eq (g : FlowGraph) (e : ElementId) :
    g.splitIdentity e
      = (g.addShares (g.nameOf e) (((g.inputsOf e).head?.map (·.type)).getD "")
          ((g.throughputs e).zipIdx 1)).removeElement e := rfl

theorem addShares_coherent (h : g.Coherent) (name type : String)
    (pairs : List ((Connection × Connection) × Nat)) :
    (g.addShares name type pairs).Coherent := by
  induction pairs generalizing g with
  | nil => exact h
  | cons pair pairs ih => exact ih (addShare_coherent h name type pair)

theorem mem_elements_addShares {pairs : List ((Connection × Connection) × Nat)} {x : Element}
    (hx : x ∈ (g.addShares name type pairs).elements) :
    x ∈ g.elements ∨ x.isIdentity = true := by
  induction pairs generalizing g with
  | nil => exact .inl hx
  | cons pair pairs ih =>
    rcases ih hx with hx | hx
    · rw [elements_addShare, List.mem_append, List.mem_singleton] at hx
      rcases hx with hx | rfl
      · exact .inl hx
      · exact .inr (share_isIdentity g name type pair.2)
    · exact .inr hx

theorem mem_addShares_of_mem (name type : String)
    (pairs : List ((Connection × Connection) × Nat)) {x : Element} (hx : x ∈ g.elements) :
    x ∈ (g.addShares name type pairs).elements := by
  induction pairs generalizing g with
  | nil => exact hx
  | cons pair pairs ih =>
    refine ih ?_
    rw [elements_addShare]
    exact List.mem_append_left _ hx

theorem mem_throughputs (h : g.Coherent) {e : Element} (he : e ∈ g.elements) :
    (i, o) ∈ g.throughputs e.id ↔
      (i ∈ g.connections ∧ i.target ∈ e.inputIds) ∧ o ∈ g.connections ∧ o.source ∈ e.outputIds := by
  simp only [throughputs, List.mem_flatMap, List.mem_map, h.mem_incoming he, h.mem_outgoing he,
    Prod.mk.injEq]
  constructor
  · intro hmem
    obtain ⟨i', hi', o', ho', rfl, rfl⟩ := hmem
    exact ⟨hi', ho'⟩
  · intro hmem
    obtain ⟨hi, ho⟩ := hmem
    exact ⟨i, hi, o, ho, rfl, rfl⟩

theorem splitIdentity_coherent (h : g.Coherent) {e : Element} (he : e ∈ g.elements) :
    (g.splitIdentity e.id).Coherent := by
  rw [splitIdentity_eq]
  exact removeElement_coherent (addShares_coherent h _ _ _) (mem_addShares_of_mem _ _ _ he)

theorem mem_splitIdentity_of_mem (h : g.Coherent) {e x : Element} (he : e ∈ g.elements)
    (hx : x ∈ g.elements) (hne : x ≠ e) : x ∈ (g.splitIdentity e.id).elements := by
  rw [splitIdentity_eq,
    mem_removeElement (addShares_coherent h _ _ _) (mem_addShares_of_mem _ _ _ he)]
  exact ⟨mem_addShares_of_mem _ _ _ hx, hne⟩

/-- Splitting takes the identity out and puts only identities in. -/
theorem mem_elements_splitIdentity (h : g.Coherent) {e x : Element} (he : e ∈ g.elements)
    (hx : x.isIdentity = false) :
    x ∈ (g.splitIdentity e.id).elements ↔ x ∈ g.elements ∧ x ≠ e := by
  rw [splitIdentity_eq,
    mem_removeElement (addShares_coherent h _ _ _) (mem_addShares_of_mem _ _ _ he)]
  refine and_congr_left fun _ => ⟨fun hx' => ?_, mem_addShares_of_mem _ _ _⟩
  exact (mem_elements_addShares hx').resolve_right (by simp [hx])

end Shares

end FlowGraph
end FlowPlan
