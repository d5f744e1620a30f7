import FlowPlan.Proofs.Stores

/-!
Changes of stored graphs.

The square for each operation: what it does to the layout of a graph is the layout of what the
operation on graphs does.  Two facts carry them.  The numbers that are handed out are greater than
all in the tables, so what is entered comes last; and the ports that an element lists are those that
it owns, so what is removed with it is its own.
-/

namespace FlowPlan
namespace FlowGraph

variable {g : FlowGraph} {e : Element} {p : PortId}

/-! ## Adding an element -/

section AddPorts

variable (owner : ElementId) (direction : Direction) {ids : IdSupply} {ports : List StoredPort}

theorem below_numberPorts (hbelow : ∀ q ∈ ports, q.id < ids.nextPort) (ds : List PortDecl) :
    ∀ q ∈ ports ++ (numberPorts ids ds).1.map (.of owner direction),
      q.id < (numberPorts ids ds).2.nextPort := by
  intro q hq
  rw [ids_numberPorts]
  rcases List.mem_append.1 hq with hq | hq
  · exact Nat.lt_add_right _ (hbelow q hq)
  · obtain ⟨r, hr, rfl⟩ := List.mem_map.1 hq
    have hid : r.id ∈ (numberPorts ids ds).1.map (·.id) := List.mem_map_of_mem hr
    rw [map_id_numberPorts] at hid
    exact (List.mem_range'_1.1 hid).2

/-- New ports come last in the table. -/
theorem addPorts_eq (elements : List StoredElement) (connections : List Connection)
    (hbelow : ∀ q ∈ ports, q.id < ids.nextPort) (ds : List PortDecl) :
    FlowStore.addPorts owner direction ⟨ids, elements, ports, connections⟩ ds =
      ((numberPorts ids ds).1.map (·.id),
        ⟨(numberPorts ids ds).2, elements,
          ports ++ (numberPorts ids ds).1.map (.of owner direction), connections⟩) := by
  induction ds generalizing ids ports with
  | nil => simp [FlowStore.addPorts, numberPorts]
  | cons d ds ih =>
    have hput : Table.put (·.id) (⟨⟨d, ids.nextPort⟩, owner, direction⟩ : StoredPort) ports
        = ports ++ [⟨⟨d, ids.nextPort⟩, owner, direction⟩] := Table.put_of_lt hbelow
    have hrest := ih (below_numberPorts owner direction hbelow [d])
    simp only [numberPorts, IdSupply.takePort, List.map_cons, List.map_nil, StoredPort.of] at hrest
    simp only [FlowStore.addPorts, FlowStore.addPort, IdSupply.takePort, hput, numberPorts]
    rw [hrest]
    simp [StoredPort.of]

end AddPorts

section Add

variable (h : g.Coherent)
include h

theorem below_ports_stored : ∀ q ∈ g.stored.ports, q.id < g.ids.nextPort := by
  intro q hq
  obtain ⟨e, he, hqe⟩ := mem_ports_stored.1 hq
  exact h.portsBelow e he q.id (map_id_storedPorts e ▸ List.mem_map_of_mem hqe)

theorem below_elements_stored : ∀ x ∈ g.stored.elements, x.id < g.ids.nextElement := by
  intro x hx
  rw [elements_stored] at hx
  obtain ⟨e, he, rfl⟩ := List.mem_map.1 hx
  rw [Element.id_stored]
  exact h.idsBelow e he

/-- The new ports and the new element come last in the tables. -/
theorem addElement_stored (d : ElementDecl) {kind : StoredKind} (hkind : d.kind.stored = kind) :
    g.stored.addElement d.name kind d.boundary d.inputs d.outputs
      = (g.ids.nextElement, (g.add d).stored) := by
  subst hkind
  have hbelow : ∀ q ∈ g.stored.ports, q.id < g.ids.takeElement.2.nextPort := below_ports_stored h
  have hinputs := addPorts_eq g.ids.nextElement .input g.stored.elements g.stored.connections
    hbelow d.inputs
  have houtputs := addPorts_eq g.ids.nextElement .output g.stored.elements g.stored.connections
    (below_numberPorts g.ids.nextElement .input hbelow d.inputs) d.outputs
  have hnew : (g.numbered d).stored = ⟨g.ids.nextElement, d.name, d.kind.stored, d.boundary,
      (numberPorts g.ids.takeElement.2 d.inputs).1.map (·.id),
      (numberPorts (numberPorts g.ids.takeElement.2 d.inputs).2 d.outputs).1.map (·.id)⟩ := by
    rw [numbered, allot, Element.stored]
    rfl
  simp only [IdSupply.takeElement] at hinputs houtputs hnew
  simp only [FlowStore.addElement, ids_stored, IdSupply.takeElement, hinputs, houtputs]
  rw [← hnew, Table.put_of_lt fun x hx => by
    rw [Element.id_stored]
    exact below_elements_stored h x hx]
  refine Prod.ext rfl (eq_stored rfl ?_ ?_ (connections_stored g))
  · rw [elements_stored, elements_add, List.map_append, List.map_singleton]
  · rw [ports_stored, elements_add, List.flatMap_append, List.flatMap_singleton, List.append_assoc]
    rfl

end Add

/-! ## Changing connections and elements -/

section Change

variable (h : g.Coherent)
include h

theorem connect_stored (u d : PortId) : g.stored.connect u d = (g.connect u d).stored := by
  have hcan : g.stored.canConnect u d = g.canConnect u d := by
    rw [FlowStore.canConnect, canConnect, isOutputPort_stored h, isInputPort_stored h,
      connections_stored]
  rw [FlowStore.connect, connect, hcan]
  split
  · refine eq_stored (ids_stored g) (elements_stored g) (ports_stored g) ?_
    rw [connections_stored]
  · rfl

theorem connectAll_stored (pairs : List (PortId × PortId)) :
    g.stored.connectAll pairs = (g.connectAll pairs).stored := by
  induction pairs generalizing g with
  | nil => rfl
  | cons p pairs ih =>
    show (g.stored.connect p.1 p.2).connectAll pairs = _
    rw [connect_stored h, ih (connect_coherent h p.1 p.2)]
    rfl

omit h in
theorem disconnect_stored (g : FlowGraph) (u d : PortId) :
    g.stored.disconnect u d = (g.disconnect u d).stored := by
  refine eq_stored (ids_stored g) (elements_stored g) (ports_stored g) ?_
  show g.stored.connections.filter _ = _
  rw [connections_stored]
  rfl

theorem moveTargets_stored (p x : PortId) (ds : List PortId) :
    ds.foldl (fun s d => (s.disconnect p d).connect x d) g.stored
      = (g.moveTargets p x ds).stored := by
  induction ds generalizing g with
  | nil => rfl
  | cons d ds ih =>
    have hd := disconnect_coherent h p d
    rw [List.foldl_cons, disconnect_stored, connect_stored hd, ih (connect_coherent hd x d)]
    rfl

omit h in
/-- A filter that drops all or nothing of each item is a filter of the items. -/
theorem filter_flatMap_of_all {α β : Type} {r : α → List β} {p : β → Bool} {q : α → Bool}
    {as : List α} (hall : ∀ a ∈ as, (r a).filter p = if q a then r a else []) :
    (as.flatMap r).filter p = (as.filter q).flatMap r := by
  induction as with
  | nil => rfl
  | cons a as ih =>
    rw [List.flatMap_cons, List.filter_append, hall a List.mem_cons_self,
      ih fun x hx => hall x (List.mem_cons_of_mem a hx), List.filter_cons]
    split <;> simp

/-- The table loses the ports that the removed element lists, which are those it owns. -/
theorem ports_removeElement_stored (he : e ∈ g.elements) :
    (g.elements.flatMap (·.storedPorts)).filter (·.id ∉ e.portIds)
      = (g.elements.filter (·.id ≠ e.id)).flatMap (·.storedPorts) := by
  refine filter_flatMap_of_all fun x hx => ?_
  by_cases hid : x.id = e.id
  · obtain rfl := h.eq_of_id_eq hx he hid
    rw [if_neg (by simp), List.filter_eq_nil_iff]
    intro q hq
    simpa using map_id_storedPorts x ▸ List.mem_map_of_mem (f := (·.id)) hq
  · rw [if_pos (by simpa using hid), List.filter_eq_self]
    intro q hq
    have hown : q.id ∈ x.portIds := map_id_storedPorts x ▸ List.mem_map_of_mem hq
    simpa using fun hp => hid (congrArg (·.id) (h.eq_of_port hx he hown hp))

theorem removeElement_stored (i : ElementId) :
    g.stored.removeElement i = (g.removeElement i).stored := by
  rw [FlowStore.removeElement, removeElement, element?_stored]
  cases hfound : g.element? i with
  | none => rfl
  | some e =>
    obtain ⟨he, rfl⟩ := mem_of_element?_eq_some hfound
    refine eq_stored (ids_stored g) ?_ ?_ ?_
    · show g.stored.elements.filter _ = _
      rw [elements_stored, List.filter_map]
      congr 2
      funext x
      simp
    · show g.stored.ports.filter _ = _
      rw [ports_stored, Element.portIds_stored]
      exact ports_removeElement_stored h he
    · show g.stored.connections.filter _ = _
      rw [connections_stored, Element.portIds_stored]
      refine List.filter_congr fun c _ => ?_
      rw [Bool.eq_iff_iff]
      simp only [touches, decide_eq_true_eq, Bool.not_eq_true', ← Bool.not_eq_true,
        Bool.or_eq_true, Element.owns_iff, not_or]

omit h in
theorem rename_stored (g : FlowGraph) (i : ElementId) (name : String) :
    g.stored.rename i name = (g.rename i name).stored := by
  refine eq_stored (ids_stored g) ?_ ?_ (connections_stored g)
  · show g.stored.elements.map _ = _
    rw [elements_stored, rename, List.map_map, List.map_map]
    refine List.map_congr_left fun x _ => ?_
    show (if x.stored.id = i then { x.stored with name } else x.stored)
      = (if x.id = i then { x with name } else x : Element).stored
    rw [Element.id_stored]
    split
    · cases x
      rw [Element.stored, Element.stored]
    · rfl
  · show g.stored.ports = _
    rw [ports_stored, rename, List.flatMap_map]
    refine List.flatMap_congr fun x _ => ?_
    show x.storedPorts = (if x.id = i then { x with name } else x : Element).storedPorts
    split <;> rfl

theorem bypass_stored (i : ElementId) : g.stored.bypass i = (g.bypass i).stored := by
  have hcoherent : (g.removeElement i).Coherent := by
    cases hfound : g.element? i with
    | none => rw [removeElement, hfound]; exact h
    | some e =>
      obtain ⟨he, rfl⟩ := mem_of_element?_eq_some hfound
      exact removeElement_coherent h he
  simp only [FlowStore.bypass, removeElement_stored h, incoming_stored, outgoing_stored]
  exact connectAll_stored hcoherent (g.bridges i)

/-! ## Pseudo elements -/

theorem addPseudo_stored (name type : String) (boundary : Boundary) :
    g.stored.addPseudo name type boundary
      = (g.ids.nextElement, (g.add (.pseudo name type boundary)).stored) :=
  addElement_stored h (.pseudo name type boundary) (by rw [ElementDecl.pseudo, ElementKind.stored])

omit h in
theorem element?_add (hg : g.Coherent) {d : ElementDecl} (hd : d.Shaped) :
    (g.add d).element? g.ids.nextElement = some (g.numbered d) :=
  (add_coherent hg hd).element?_eq_some (mem_add.2 (.inr rfl))

/-- A new element that is renamed is a new element of that name. -/
theorem rename_add_pseudo (name type : String) (boundary : Boundary) :
    (g.add (.pseudo "" type boundary)).rename g.ids.nextElement name
      = g.add (.pseudo name type boundary) := by
  have hold : g.elements.map (fun x => if x.id = g.ids.nextElement then { x with name } else x)
      = g.elements := by
    refine (List.map_congr_left fun x hx => ?_).trans (List.map_id _)
    exact if_neg (Nat.ne_of_lt (h.idsBelow x hx))
  rw [rename, elements_add, List.map_append, hold, List.map_singleton,
    if_pos (show (g.numbered _).id = g.ids.nextElement from rfl)]
  rfl

theorem addFreshPseudo?_stored (type : String) (boundary : Boundary) :
    g.stored.addFreshPseudo? type boundary
      = some (g.ids.nextElement, (g.addFreshPseudo type boundary).stored) := by
  have hfound := element?_add h (ElementDecl.pseudo_shaped "" type boundary)
  have hlabel : (g.numbered (.pseudo "" type boundary)).stored.plain.kindLabel
      = if boundary = .stage then "checkpoint" else "identity" := by
    rw [OnPlain.kindLabel]
    rfl
  simp only [FlowStore.addFreshPseudo?, addPseudo_stored h, element?_stored, hfound,
    Option.map_some, rename_stored, Option.bind_eq_bind, Option.bind_some, hlabel,
    rename_add_pseudo h]
  rfl

section Ports

variable {k : FlowGraph} {name type : String} {boundary : Boundary}
  (hk : k.elements = (g.add (.pseudo name type boundary)).elements)
include hk

theorem element?_of_added :
    k.element? g.ids.nextElement = some (g.numbered (.pseudo name type boundary)) := by
  rw [← element?_add h (ElementDecl.pseudo_shaped name type boundary), element?, element?, hk]

/-- The first ports of the new element, whatever is connected since it was added. -/
theorem entry?_stored : k.stored.entry? g.ids.nextElement = some g.entry := by
  rw [FlowStore.entry?, element?_stored, element?_of_added h hk, Option.map_some, Option.bind_some,
    Element.inputs_stored, inputIds_numbered_pseudo, List.head?_cons]

theorem exit?_stored : k.stored.exit? g.ids.nextElement = some g.exit := by
  rw [FlowStore.exit?, element?_stored, element?_of_added h hk, Option.map_some, Option.bind_some,
    Element.outputs_stored, outputIds_numbered_pseudo, List.head?_cons]

end Ports

/-- The type that is read in the table is the type of the port. -/
theorem port?_stored_of_owner? (ho : g.owner? p = some e) :
    ∃ q, g.stored.port? p = some q ∧ q.type = g.portType p := by
  obtain ⟨he, hp⟩ := mem_of_owner?_eq_some ho
  obtain ⟨q, -, -, hq⟩ := h.exists_port?_stored he hp
  refine ⟨q, hq, ?_⟩
  rw [portType, ← toPort?_stored h, hq]
  rfl

theorem insertPseudoOn?_stored (c : Connection) (boundary : Boundary) :
    g.stored.insertPseudoOn? c boundary = (g.insertPseudoOn? c boundary).map (·.stored) := by
  cases ho : g.owner? c.source with
  | none =>
    simp [FlowStore.insertPseudoOn?, insertPseudoOn?, port?_stored_of_owner?_eq_none ho, ho]
  | some e =>
    obtain ⟨q, hq, htype⟩ := port?_stored_of_owner? h ho
    have hfresh := addFreshPseudo_coherent h (g.portType c.source) boundary
    have hcut := disconnect_coherent hfresh c.source c.target
    have hentry := entry?_stored (k := (g.addFreshPseudo (g.portType c.source) boundary).disconnect
      c.source c.target) h rfl
    have hexit := exit?_stored (k := (g.addFreshPseudo (g.portType c.source) boundary).disconnect
      c.source c.target) h rfl
    simp only [FlowStore.insertPseudoOn?, hq, htype, Option.bind_eq_bind, Option.bind_some,
      addFreshPseudo?_stored h, disconnect_stored, hentry, hexit, connect_stored hcut,
      connect_stored (connect_coherent hcut _ _)]
    rw [insertPseudoOn?, ho]
    rfl

theorem insertPseudoAfter?_stored (p : PortId) (boundary : Boundary) :
    g.stored.insertPseudoAfter? p boundary = (g.insertPseudoAfter? p boundary).map (·.stored) := by
  cases ho : g.owner? p with
  | none =>
    simp [FlowStore.insertPseudoAfter?, insertPseudoAfter?, port?_stored_of_owner?_eq_none ho, ho]
  | some e =>
    obtain ⟨q, hq, htype⟩ := port?_stored_of_owner? h ho
    have hfresh := addFreshPseudo_coherent h (g.portType p) boundary
    have hentry := entry?_stored (k := g.addFreshPseudo (g.portType p) boundary) h rfl
    have hexit := exit?_stored (k := g.addFreshPseudo (g.portType p) boundary) h rfl
    simp only [FlowStore.insertPseudoAfter?, hq, htype, Option.bind_eq_bind, Option.bind_some,
      addFreshPseudo?_stored h, hentry, hexit, opposites_stored, moveTargets_stored hfresh,
      connect_stored (moveTargets_coherent hfresh _ _ _)]
    rw [insertPseudoAfter?, ho]
    rfl

end Change

end FlowGraph
end FlowPlan
