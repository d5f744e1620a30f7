import FlowPlan.Proofs.Unfolding

/-!
Graphs with parts as nets.

Parts only group: what works on records are the elements at all depths that are no parts.  A net
lists these units and the wires between their ports, whatever parts they lie in.  An input of a
nested flow is a unit that takes up records at the port of the part, and an output one that sends
them from there, so each of them joins two depths.
-/

namespace FlowPlan

/-- A port in a graph with parts: the parts that lead to it, the outermost first, and its number. -/
structure Spot where
  path : List ElementId
  port : PortId
deriving DecidableEq, Repr

namespace Spot

/-- A port of the graph itself. -/
def here (p : PortId) : Spot := ⟨[], p⟩

/-- A port that lies in a part. -/
def under (e : ElementId) (s : Spot) : Spot := ⟨e :: s.path, s.port⟩

end Spot

/-- An element that is no part, as it is declared, with its ports. -/
structure NetUnit (α : Type) where
  decl : ElementDecl
  ins : List α
  outs : List α

namespace NetUnit

variable {α β γ : Type}

def map (f : α → β) (u : NetUnit α) : NetUnit β :=
  { decl := u.decl, ins := u.ins.map f, outs := u.outs.map f }

def ports (u : NetUnit α) : List α := u.ins ++ u.outs

theorem map_id (u : NetUnit α) : u.map id = u := by
  simp [map]

theorem map_map (f : α → β) (f' : β → γ) (u : NetUnit α) : (u.map f).map f' = u.map (f' ∘ f) := by
  simp [map]

theorem map_congr {f f' : α → β} {u : NetUnit α} (h : ∀ a ∈ u.ports, f a = f' a) :
    u.map f = u.map f' := by
  unfold map
  congr 1
  · exact List.map_congr_left fun a ha => h a (List.mem_append_left _ ha)
  · exact List.map_congr_left fun a ha => h a (List.mem_append_right _ ha)

theorem ports_map (f : α → β) (u : NetUnit α) : (u.map f).ports = u.ports.map f := by
  simp [map, ports]

end NetUnit

def Element.unit (e : Element) : NetUnit PortId :=
  { decl := e.decl, ins := e.inputIds, outs := e.outputIds }

namespace ElementDecl

/-- An input or an output of a flow. -/
def isEnd (d : ElementDecl) : Bool := d.kind.isInput || d.kind.isOutput

def firstType (ports : List PortDecl) : String := (ports.head?.map (·.type)).getD ""

/-- What is declared in a part, as it is seen from outside. -/
def within (part : String) (d : ElementDecl) : ElementDecl :=
  let name := s!"{part}.{d.name}"
  match d.kind with
  | .input => .pseudo name (firstType d.outputs) .none
  | .output => .pseudo name (firstType d.inputs) .none
  | .operator desc => .operator name desc d.inputs d.outputs d.boundary
  | .pseudo => .pseudo name (firstType d.inputs) d.boundary
  | .flowPart inner => .flowPart name inner

theorem isEnd_within (part : String) (d : ElementDecl) : (d.within part).isEnd = false := by
  unfold within isEnd
  cases d.kind <;> rfl

theorem within_within (outer part : String) (d : ElementDecl) :
    (d.within part).within outer = d.within s!"{outer}.{part}" := by
  have hname : ∀ name inside path : String, inside = s!"{part}.{name}" →
      path = s!"{outer}.{part}" → s!"{outer}.{inside}" = s!"{path}.{name}" := by
    intro name inside path hinside hpath
    subst hinside hpath
    show outer ++ "." ++ (part ++ "." ++ name) = outer ++ "." ++ part ++ "." ++ name
    simp only [String.append_assoc]
  unfold within
  cases d.kind <;>
    simp only [pseudo, operator, flowPart, firstType, List.head?_cons, Option.map_some,
      Option.getD_some, PortDecl.plain, hname _ _ _ rfl rfl]

end ElementDecl

namespace NetUnit

variable {α β γ : Type}

/-- What a unit in a part is outside of it. -/
def within (part : String) (f : α → β) (u : NetUnit α) : NetUnit β :=
  { u.map f with decl := u.decl.within part }

theorem within_map (part : String) (f : α → β) (f' : β → γ) (u : NetUnit α) :
    (u.within part f).map f' = u.within part (f' ∘ f) := by
  simp [within, map]

theorem within_within (outer part : String) (f : α → β) (f' : β → γ) (u : NetUnit α) :
    (u.within part f).within outer f' = u.within s!"{outer}.{part}" (f' ∘ f) := by
  simp only [within, map, ElementDecl.within_within, List.map_map]

end NetUnit

namespace FlowGraph

/-! ## Units -/

/-- The units of a part: its ends, joined to the ports of the part, and everything else in it. -/
def partUnits (e : Element) (inner : FlowGraph) (units : List (NetUnit Spot)) :
    List (NetUnit Spot) :=
  (((inner.elements.filter (·.isInput)).zip e.inputIds).map fun (x, a) =>
      { decl := x.decl.within e.name, ins := [.here a],
        outs := x.outputIds.map fun q => .under e.id (.here q) })
    ++ (((inner.elements.filter (·.isOutput)).zip e.outputIds).map fun (x, b) =>
      { decl := x.decl.within e.name, ins := x.inputIds.map fun q => .under e.id (.here q),
        outs := [.here b] })
    ++ (units.filter fun u => !u.decl.isEnd).map (·.within e.name (.under e.id))

/-- The units at all depths. -/
def units (g : FlowGraph) : List (NetUnit Spot) :=
  g.elements.attach.flatMap fun ⟨e, _⟩ =>
    match _hk : e.kind with
    | .flowPart inner => partUnits e inner inner.units
    | _ => [e.unit.map .here]
termination_by sizeOf g
decreasing_by exact sizeOf_inner_lt (by assumption) (by assumption)

/-- The units that an element is or holds. -/
def unitsOf (e : Element) : List (NetUnit Spot) :=
  match e.kind with
  | .flowPart inner => partUnits e inner inner.units
  | _ => [e.unit.map .here]

theorem units_eq (g : FlowGraph) : g.units = g.elements.flatMap unitsOf := by
  have hattach : g.elements.flatMap unitsOf = g.elements.attach.flatMap fun e => unitsOf e.1 := by
    conv => lhs; rw [← List.attach_map_subtype_val g.elements, List.flatMap_map]
  rw [units, hattach]
  refine List.flatMap_congr fun ⟨e, he⟩ _ => ?_
  obtain ⟨_, _, kind, _, _, _⟩ := e
  cases kind <;> rfl

/-! ## Wires -/

/-- A connection from an output of a part to an input of the same part. -/
def selfFeeds (g : FlowGraph) (c : Connection) : Bool :=
  g.elements.any fun e =>
    e.isFlowPart && e.outputIds.contains c.source && e.inputIds.contains c.target

/-- The connections at all depths that meet a condition. -/
def wiresWhere (keeps : FlowGraph → Connection → Bool) (g : FlowGraph) : List (Spot × Spot) :=
  ((g.connections.filter (keeps g)).map fun c => (.here c.source, .here c.target))
    ++ g.elements.attach.flatMap fun ⟨e, _⟩ =>
      match _hk : e.kind with
      | .flowPart inner =>
        (wiresWhere keeps inner).map fun w => (.under e.id w.1, .under e.id w.2)
      | _ => []
termination_by sizeOf g
decreasing_by exact sizeOf_inner_lt (by assumption) (by assumption)

/-- The connections at all depths. -/
def wires (g : FlowGraph) : List (Spot × Spot) := wiresWhere (fun _ _ => true) g

/-- The connections at all depths, except those by which a part feeds itself. -/
def properWires (g : FlowGraph) : List (Spot × Spot) := wiresWhere (fun g c => !g.selfFeeds c) g

/-- The wires that an element holds. -/
def wiresOf (keeps : FlowGraph → Connection → Bool) (e : Element) : List (Spot × Spot) :=
  match e.kind with
  | .flowPart inner => (wiresWhere keeps inner).map fun w => (.under e.id w.1, .under e.id w.2)
  | _ => []

theorem wiresWhere_eq (keeps : FlowGraph → Connection → Bool) (g : FlowGraph) :
    wiresWhere keeps g =
      ((g.connections.filter (keeps g)).map fun c => (.here c.source, .here c.target))
        ++ g.elements.flatMap (wiresOf keeps) := by
  have hattach : g.elements.flatMap (wiresOf keeps)
      = g.elements.attach.flatMap fun e => wiresOf keeps e.1 := by
    conv => lhs; rw [← List.attach_map_subtype_val g.elements, List.flatMap_map]
  rw [wiresWhere, hattach]
  congr 1
  refine List.flatMap_congr fun ⟨e, he⟩ _ => ?_
  obtain ⟨_, _, kind, _, _, _⟩ := e
  cases kind <;> rfl

theorem mem_wiresWhere {keeps : FlowGraph → Connection → Bool} {g : FlowGraph} {w : Spot × Spot} :
    w ∈ wiresWhere keeps g ↔
      (∃ c ∈ g.connections, keeps g c = true ∧ w = (.here c.source, .here c.target)) ∨
        ∃ e ∈ g.elements, ∃ inner, e.kind = .flowPart inner ∧
          ∃ w' ∈ wiresWhere keeps inner, w = (.under e.id w'.1, .under e.id w'.2) := by
  rw [wiresWhere_eq, List.mem_append, List.mem_map, List.mem_flatMap]
  refine or_congr ?_ (exists_congr fun e => and_congr_right fun _ => ?_)
  · simp only [List.mem_filter, and_assoc, eq_comm]
  · unfold wiresOf
    cases hk : e.kind with
    | flowPart inner =>
      simp only [List.mem_map, ElementKind.flowPart.injEq, exists_eq_left', eq_comm]
    | _ => simp

/-! ## Where spots go -/

/-- A part replaced, before the connections are made. -/
def unfolding (g : FlowGraph) (e : Element) (inner : FlowGraph) : Unfolding :=
  inner.elements.foldl (Unfolding.step e.name)
    { graph := g.removeElement e.id, copies := [], entries := [], exits := [] }

/-- The elements of a part with their copies. -/
def copies (g : FlowGraph) (e : Element) (inner : FlowGraph) : List (Element × Element) :=
  copiesIn e.name (g.removeElement e.id) inner.elements

/-- A port of the graph goes to an entry or an exit if it is a port of the part. -/
def movedPort (g : FlowGraph) (e : Element) (inner : FlowGraph) (p : PortId) : PortId :=
  let u := g.unfolding e inner
  ((e.inputIds.zip u.entries ++ e.outputIds.zip u.exits).lookup p).getD p

/-- A port in the part goes to its copy. -/
def copiedPort (g : FlowGraph) (e : Element) (inner : FlowGraph) (q : PortId) : PortId :=
  ((g.unfolding e inner).copies.lookup q).getD q

def copiedElement (g : FlowGraph) (e : Element) (inner : FlowGraph) (i : ElementId) : ElementId :=
  (((g.copies e inner).map fun (x, y) => (x.id, y.id)).lookup i).getD i

/-- Where the ports are once a part is replaced. -/
def relocate (g : FlowGraph) (e : Element) (inner : FlowGraph) (s : Spot) : Spot :=
  match s.path with
  | [] => .here (g.movedPort e inner s.port)
  | i :: rest =>
    if i = e.id then
      match rest with
      | [] => .here (g.copiedPort e inner s.port)
      | j :: rest => ⟨g.copiedElement e inner j :: rest, s.port⟩
    else s

theorem relocate_here (g : FlowGraph) (e : Element) (inner : FlowGraph) (p : PortId) :
    g.relocate e inner (.here p) = .here (g.movedPort e inner p) := rfl

theorem relocate_under_here (g : FlowGraph) (e : Element) (inner : FlowGraph) (q : PortId) :
    g.relocate e inner (.under e.id (.here q)) = .here (g.copiedPort e inner q) := by
  simp [relocate, Spot.under, Spot.here]

/-- Where the ports are once all parts are replaced. -/
def placement (g : FlowGraph) : Spot → Spot :=
  match _h : g.firstPart? with
  | none => id
  | some (e, inner) => (g.unfold e inner).placement ∘ g.relocate e inner
termination_by g.partCount
decreasing_by
  obtain ⟨he, hk⟩ := firstPart?_eq_some _h
  exact partCount_unfold_lt he hk

/-- The port of the flat graph that a port at some depth becomes. -/
def place (g : FlowGraph) (s : Spot) : PortId := (g.placement s).port

end FlowGraph
end FlowPlan
