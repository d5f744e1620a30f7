import FlowPlan.Proofs.LegalGraphs
import FlowPlan.Proofs.Rewriting

/-!
Histories: graphs as their edits make them.

A history lists the calls that build and change a graph, the passes of normalization among them,
with whatever numbers they are given; it fails where a call needs a port that is not there.  The
flow of a part comes with a history of its own, so a history is all there is to a graph.

Every graph that a history makes is well-formed, and since any earlier moment each element has kept
its number and its ports or has new ones.  Numbers are natural, so they do not run out.
-/

namespace FlowPlan

/-- The passes of normalization, and all of them in turn. -/
inductive Rewrite
  | flatten
  | insertCheckpoints
  | insertIdentities
  | splitIdentities
  | reduceIdentities
  | normalize
deriving DecidableEq, Repr

/-- One call that changes a graph. -/
inductive Edit
  | input (name type : String)
  | output (name type : String)
  | operator (name : String) (desc : OperatorDesc) (inputs outputs : List PortDecl)
      (boundary : Boundary)
  | pseudo (name type : String) (boundary : Boundary)
  /-- The flow of the part is what its own edits make of an empty graph. -/
  | flowPart (name : String) (edits : List Edit)
  | connect (source target : PortId)
  | disconnect (source target : PortId)
  | remove (e : ElementId)
  | rename (e : ElementId) (name : String)
  | insertOn (c : Connection) (boundary : Boundary)
  | insertAfter (p : PortId) (boundary : Boundary)
  | bypass (e : ElementId)
  | rewrite (r : Rewrite)

namespace FlowGraph

variable {g k l : FlowGraph}

def rewriteBy (g : FlowGraph) : Rewrite → FlowGraph
  | .flatten => g.flatten.1
  | .insertCheckpoints => g.insertCheckpoints.1
  | .insertIdentities => g.insertIdentities.1
  | .splitIdentities => g.splitIdentities.1
  | .reduceIdentities => g.reduceIdentities.1
  | .normalize => g.normalize.1

mutual

def edit? (g : FlowGraph) : Edit → Option FlowGraph
  | .input name type => some (g.add (.input name type))
  | .output name type => some (g.add (.output name type))
  | .operator name desc inputs outputs boundary =>
    some (g.add (.operator name desc inputs outputs boundary))
  | .pseudo name type boundary => some (g.add (.pseudo name type boundary))
  | .flowPart name edits => (editAll? empty edits).map fun inner => g.add (.flowPart name inner)
  | .connect source target => some (g.connect source target)
  | .disconnect source target => some (g.disconnect source target)
  | .remove e => some (g.removeElement e)
  | .rename e name => some (g.rename e name)
  | .insertOn c boundary => g.insertPseudoOn? c boundary
  | .insertAfter p boundary => g.insertPseudoAfter? p boundary
  | .bypass e => some (g.bypass e)
  | .rewrite r => some (g.rewriteBy r)

/-- Make each edit in turn. -/
def editAll? (g : FlowGraph) : List Edit → Option FlowGraph
  | [] => some g
  | e :: es => (edit? g e).bind fun k => editAll? k es

end

/-! ## Calls with numbers of something that is not there -/

theorem removeElement_of_not_mem {i : ElementId} (h : g.element? i = none) :
    g.removeElement i = g := by
  rw [removeElement, h]

theorem insertPseudoOn?_eq_some {c : Connection} {boundary : Boundary}
    (h : g.insertPseudoOn? c boundary = some k) : k = g.insertPseudoOn c boundary := by
  unfold insertPseudoOn? at h
  split at h
  · exact (Option.some.inj h).symm
  · cases h

theorem insertPseudoAfter?_eq_some {p : PortId} {boundary : Boundary}
    (h : g.insertPseudoAfter? p boundary = some k) : k = g.insertPseudoAfter p boundary := by
  unfold insertPseudoAfter? at h
  split at h
  · exact (Option.some.inj h).symm
  · cases h

/-! ## Renaming -/

/-- The same element, perhaps under another name. -/
structure IsRenaming (x y : Element) : Prop where
  id : y.id = x.id
  kind : y.kind = x.kind
  boundary : y.boundary = x.boundary
  inputs : y.inputs = x.inputs
  outputs : y.outputs = x.outputs

namespace IsRenaming

variable {x y z : Element}

theorem refl (x : Element) : IsRenaming x x := ⟨rfl, rfl, rfl, rfl, rfl⟩

theorem trans (hxy : IsRenaming x y) (hyz : IsRenaming y z) : IsRenaming x z :=
  ⟨hyz.id.trans hxy.id, hyz.kind.trans hxy.kind, hyz.boundary.trans hxy.boundary,
    hyz.inputs.trans hxy.inputs, hyz.outputs.trans hxy.outputs⟩

theorem ports (h : IsRenaming x y) : y.ports = x.ports := by
  rw [Element.ports, h.inputs, h.outputs]
  rfl

theorem portIds (h : IsRenaming x y) : y.portIds = x.portIds := by
  rw [Element.portIds, h.ports]
  rfl

theorem shaped (h : IsRenaming x y) (hx : x.Shaped) : y.Shaped := by
  rw [Element.Shaped, h.kind, h.boundary, h.inputs, h.outputs]
  exact hx

end IsRenaming

section Rename

variable {i : ElementId} {name : String}

theorem mem_rename {y : Element} (hy : y ∈ (g.rename i name).elements) :
    ∃ x ∈ g.elements, IsRenaming x y := by
  obtain ⟨x, hx, rfl⟩ := List.mem_map.1 hy
  refine ⟨x, hx, ?_⟩
  split
  · exact ⟨rfl, rfl, rfl, rfl, rfl⟩
  · exact .refl x

/-- What does not depend on names is the same for all elements. -/
theorem map_rename {β : Type} {f : Element → β} (hf : ∀ x name, f { x with name := name } = f x) :
    (g.rename i name).elements.map f = g.elements.map f := by
  rw [rename, List.map_map]
  refine List.map_congr_left fun x _ => ?_
  show f (if x.id = i then { x with name := name } else x) = f x
  split
  · exact hf x name
  · rfl

theorem any_rename {q : Element → Bool} (hq : ∀ x name, q { x with name := name } = q x) :
    (g.rename i name).elements.any q = g.elements.any q := by
  have h : ((g.rename i name).elements.map q).any id = (g.elements.map q).any id := by
    rw [map_rename hq]
  simpa [List.any_map] using h

theorem rename_coherent (h : g.Coherent) (i : ElementId) (name : String) :
    (g.rename i name).Coherent where
  ascending := by
    rw [← List.pairwise_map (f := Element.id) (R := (· < ·)), map_rename fun _ _ => rfl,
      List.pairwise_map]
    exact h.ascending
  idsBelow := by
    intro y hy
    obtain ⟨x, hx, hr⟩ := mem_rename hy
    rw [hr.id]
    exact h.idsBelow x hx
  portsOnce := by
    rw [List.flatMap, map_rename fun _ _ => rfl]
    exact h.portsOnce
  portsBelow := by
    intro y hy
    obtain ⟨x, hx, hr⟩ := mem_rename hy
    rw [hr.portIds]
    exact h.portsBelow x hx
  joined := by
    intro c hc
    rw [isOutputPort, isInputPort, any_rename fun _ _ => rfl, any_rename fun _ _ => rfl]
    exact h.joined c hc
  connectedOnce := h.connectedOnce
  shaped := by
    intro y hy
    obtain ⟨x, hx, hr⟩ := mem_rename hy
    exact hr.shaped (h.shaped x hx)

theorem rename_wellFormed (h : g.WellFormed) (i : ElementId) (name : String) :
    (g.rename i name).WellFormed := by
  refine .intro (rename_coherent h.coherent i name) fun y hy inner hk => ?_
  obtain ⟨x, hx, hr⟩ := mem_rename hy
  exact h.inner hx (hr.kind ▸ hk)

end Rename

/-! ## Graphs stay well-formed -/

section WellFormed

variable (h : g.WellFormed)
include h

theorem disconnect_wellFormed (u d : PortId) : (g.disconnect u d).WellFormed :=
  h.of_coherent (disconnect_coherent h.coherent u d) fun _ hx => .inl hx

theorem addFreshPseudo_wellFormed (type : String) (boundary : Boundary) :
    (g.addFreshPseudo type boundary).WellFormed :=
  add_wellFormed h (ElementDecl.pseudo_shaped _ type boundary) fun _ hk => by cases hk

theorem insertPseudoOn_wellFormed (c : Connection) (boundary : Boundary) :
    (g.insertPseudoOn c boundary).WellFormed :=
  connect_wellFormed (connect_wellFormed (disconnect_wellFormed
    (addFreshPseudo_wellFormed h _ boundary) _ _) _ _) _ _

theorem insertPseudoAfter_wellFormed (p : PortId) (boundary : Boundary) :
    (g.insertPseudoAfter p boundary).WellFormed := by
  refine (addFreshPseudo_wellFormed h (g.portType p) boundary).of_coherent
    (insertPseudoAfter_coherent h.coherent p boundary) fun x hx => .inl ?_
  rw [elements_insertPseudoAfter] at hx
  exact hx

/-- Taking out an element, whether it is there or not. -/
theorem remove_wellFormed (i : ElementId) : (g.removeElement i).WellFormed := by
  cases he : g.element? i with
  | none => exact (removeElement_of_not_mem he).symm ▸ h
  | some e =>
    obtain ⟨hmem, rfl⟩ := mem_of_element?_eq_some he
    exact removeElement_wellFormed h hmem

theorem bypass_wellFormed (i : ElementId) : (g.bypass i).WellFormed :=
  connectAll_wellFormed (remove_wellFormed h i) _

theorem rewriteBy_wellFormed (r : Rewrite) : (g.rewriteBy r).WellFormed := by
  cases r with
  | flatten => exact flatten_wellFormed h
  | insertCheckpoints => exact (insertCheckpoints_rewrites h.coherent).wellFormed h
  | insertIdentities => exact (insertIdentities_rewrites h.coherent).wellFormed h
  | splitIdentities => exact (splitIdentities_rewrites h.coherent).wellFormed h
  | reduceIdentities => exact (reduceIdentities_rewrites h.coherent).wellFormed h
  | normalize => exact normalize_wellFormed h

end WellFormed

theorem add_isSound_wellFormed (h : g.WellFormed) {d : ElementDecl} (hd : d.IsSound) :
    (g.add d).WellFormed := add_wellFormed h hd.1 hd.2

mutual

theorem edit?_wellFormed {g k : FlowGraph} (h : g.WellFormed) :
    ∀ e : Edit, g.edit? e = some k → k.WellFormed
  | .input name type, hk =>
    Option.some.inj hk ▸ add_isSound_wellFormed h (ElementDecl.input_isSound name type)
  | .output name type, hk =>
    Option.some.inj hk ▸ add_isSound_wellFormed h (ElementDecl.output_isSound name type)
  | .operator name desc inputs outputs boundary, hk =>
    Option.some.inj hk ▸ add_isSound_wellFormed h
      (ElementDecl.operator_isSound name desc inputs outputs boundary)
  | .pseudo name type boundary, hk =>
    Option.some.inj hk ▸ add_isSound_wellFormed h (ElementDecl.pseudo_isSound name type boundary)
  | .flowPart name edits, hk => by
    obtain ⟨inner, hinner, rfl⟩ := Option.map_eq_some_iff.1 hk
    have hwf := editAll?_wellFormed empty_wellFormed edits hinner
    exact add_isSound_wellFormed h ((ElementDecl.flowPart_isSound name inner).2 hwf)
  | .connect source target, hk => Option.some.inj hk ▸ connect_wellFormed h source target
  | .disconnect source target, hk => Option.some.inj hk ▸ disconnect_wellFormed h source target
  | .remove e, hk => Option.some.inj hk ▸ remove_wellFormed h e
  | .rename e name, hk => Option.some.inj hk ▸ rename_wellFormed h e name
  | .insertOn c boundary, hk => insertPseudoOn?_eq_some hk ▸ insertPseudoOn_wellFormed h c boundary
  | .insertAfter p boundary, hk =>
    insertPseudoAfter?_eq_some hk ▸ insertPseudoAfter_wellFormed h p boundary
  | .bypass e, hk => Option.some.inj hk ▸ bypass_wellFormed h e
  | .rewrite r, hk => Option.some.inj hk ▸ rewriteBy_wellFormed h r

theorem editAll?_wellFormed {g k : FlowGraph} (h : g.WellFormed) :
    ∀ es : List Edit, g.editAll? es = some k → k.WellFormed
  | [], hk => Option.some.inj hk ▸ h
  | e :: es, hk => by
    obtain ⟨m, hm, hk⟩ := Option.bind_eq_some_iff.1 hk
    exact editAll?_wellFormed (edit?_wellFormed h e hm) es hk

end

/-! ## Numbers are given once -/

/-- An element that is added: its numbers were not given out before, and if it passes records on,
both its sides have to be connected. -/
structure IsNew (g : FlowGraph) (y : Element) : Prop where
  id : g.ids.nextElement ≤ y.id
  ports : ∀ p ∈ y.portIds, g.ids.nextPort ≤ p
  mandatory : y.isPseudo = true → ∀ p ∈ y.ports, p.optional = false

/-- One graph comes from the other by giving out further numbers: each element has the number and
the ports that it had, or new ones. -/
structure Evolves (g k : FlowGraph) : Prop where
  nextElement : g.ids.nextElement ≤ k.ids.nextElement
  nextPort : g.ids.nextPort ≤ k.ids.nextPort
  elements : ∀ y ∈ k.elements, (∃ x ∈ g.elements, IsRenaming x y) ∨ g.IsNew y

namespace Evolves

theorem of_subset (hids : k.ids = g.ids) (hsub : ∀ y ∈ k.elements, y ∈ g.elements) :
    Evolves g k :=
  ⟨hids ▸ Nat.le_refl _, hids ▸ Nat.le_refl _, fun y hy => .inl ⟨y, hsub y hy, .refl y⟩⟩

theorem refl (g : FlowGraph) : Evolves g g := of_subset rfl fun _ hy => hy

theorem trans (hgk : Evolves g k) (hkl : Evolves k l) : Evolves g l where
  nextElement := Nat.le_trans hgk.nextElement hkl.nextElement
  nextPort := Nat.le_trans hgk.nextPort hkl.nextPort
  elements := by
    intro z hz
    rcases hkl.elements z hz with ⟨y, hy, hyz⟩ | hnew
    · rcases hgk.elements y hy with ⟨x, hx, hxy⟩ | hnew
      · exact .inl ⟨x, hx, hxy.trans hyz⟩
      · refine .inr ⟨hyz.id ▸ hnew.id, hyz.portIds ▸ hnew.ports, ?_⟩
        rw [Element.isPseudo, hyz.kind, hyz.ports]
        exact hnew.mandatory
    · exact .inr ⟨Nat.le_trans hgk.nextElement hnew.id,
        fun p hp => Nat.le_trans hgk.nextPort (hnew.ports p hp), hnew.mandatory⟩

/-! ### Primitive changes -/

theorem add (g : FlowGraph) {d : ElementDecl}
    (hd : d.kind = .pseudo → ∀ p ∈ d.inputs ++ d.outputs, p.optional = false) :
    Evolves g (g.add d) where
  nextElement := ids_add g d ▸ Nat.le_succ _
  nextPort := ids_add g d ▸ Nat.le_add_right _ _
  elements := by
    intro y hy
    rcases mem_add.1 hy with hy | rfl
    · exact .inl ⟨y, hy, .refl y⟩
    · refine .inr ⟨Nat.le_refl _, fun p hp => ?_, fun hpseudo p hp => ?_⟩
      · rw [portIds_numbered] at hp
        exact (List.mem_range'_1.1 hp).1
      · have hdecl : p.toPortDecl ∈ decls (g.numbered d).ports := List.mem_map_of_mem hp
        rw [Element.ports, decls, List.map_append] at hdecl
        rw [← decls, ← decls, decls_inputs_numbered, decls_outputs_numbered] at hdecl
        exact hd (Element.isPseudo_iff.1 hpseudo) _ hdecl

theorem addPseudo (g : FlowGraph) (name type : String) (boundary : Boundary) :
    Evolves g (g.add (.pseudo name type boundary)) :=
  add g fun _ => by simp [ElementDecl.pseudo, PortDecl.plain]

theorem connect (g : FlowGraph) (u d : PortId) : Evolves g (g.connect u d) :=
  of_subset (ids_connect g u d) fun _ hy => elements_connect g u d ▸ hy

theorem connectAll (g : FlowGraph) (pairs : List (PortId × PortId)) :
    Evolves g (g.connectAll pairs) := by
  induction pairs generalizing g with
  | nil => exact refl g
  | cons p pairs ih => exact (connect g p.1 p.2).trans (ih _)

theorem disconnect (g : FlowGraph) (u d : PortId) : Evolves g (g.disconnect u d) :=
  of_subset rfl fun _ hy => hy

theorem removeElement (g : FlowGraph) (i : ElementId) : Evolves g (g.removeElement i) := by
  unfold FlowGraph.removeElement
  split
  · exact refl g
  · exact of_subset rfl fun _ hy => List.mem_of_mem_filter hy

theorem rename (g : FlowGraph) (i : ElementId) (name : String) : Evolves g (g.rename i name) :=
  ⟨Nat.le_refl _, Nat.le_refl _, fun _ hy => .inl (mem_rename hy)⟩

theorem foldl {α β : Type} (graph : β → FlowGraph) {f : β → α → β}
    (step : ∀ b a, Evolves (graph b) (graph (f b a))) (as : List α) (b : β) :
    Evolves (graph b) (graph (as.foldl f b)) := by
  induction as generalizing b with
  | nil => exact refl _
  | cons a as ih => exact (step b a).trans (ih _)

/-! ### Changes around one place -/

theorem insertPseudoOn (g : FlowGraph) (c : Connection) (boundary : Boundary) :
    Evolves g (g.insertPseudoOn c boundary) :=
  (((addPseudo g _ _ boundary).trans (disconnect _ _ _)).trans (connect _ _ _)).trans
    (connect _ _ _)

theorem insertPseudoAfter (g : FlowGraph) (p : PortId) (boundary : Boundary) :
    Evolves g (g.insertPseudoAfter p boundary) :=
  ((addPseudo g _ _ boundary).trans
    (foldl id (fun k _ => (disconnect k _ _).trans (connect _ _ _)) _ _)).trans
      (connect _ _ _)

theorem bypass (g : FlowGraph) (i : ElementId) : Evolves g (g.bypass i) :=
  (removeElement g i).trans (connectAll _ _)

theorem splitIdentity (g : FlowGraph) (i : ElementId) : Evolves g (g.splitIdentity i) := by
  refine (foldl id (fun k pair => ?_) ((g.throughputs i).zipIdx 1) g).trans
    (removeElement _ i)
  obtain ⟨⟨_, _⟩, _⟩ := pair
  exact ((addPseudo k _ _ .none).trans (connect _ _ _)).trans (connect _ _ _)

/-! ### Passes -/

theorem of_localChange (hs : LocalChange g k) : Evolves g k := by
  cases hs with
  | insertOn => exact insertPseudoOn g _ _
  | insertAfter => exact insertPseudoAfter g _ _
  | split => exact splitIdentity g _
  | bypass => exact bypass g _

theorem of_rewrites (h : g.Coherent) (hs : Rewrites g k) : Evolves g k :=
  (hs.induction (P := Evolves g) (fun _ _ _ hstep hg => hg.trans (of_localChange hstep)) h
    (refl g)).2

theorem mandatory_copyOf (part : String) (e : Element) :
    (copyOf part e).kind = .pseudo →
      ∀ p ∈ (copyOf part e).inputs ++ (copyOf part e).outputs, p.optional = false := by
  unfold copyOf
  cases e.kind <;> simp [ElementDecl.pseudo, ElementDecl.operator, ElementDecl.flowPart,
    PortDecl.plain]

theorem unfold (g : FlowGraph) (e : Element) (inner : FlowGraph) :
    Evolves g (g.unfold e inner) := by
  have hcopies := foldl Unfolding.graph (f := Unfolding.step e.name)
    (fun s x => add s.graph (mandatory_copyOf e.name x)) inner.elements
    { graph := g.removeElement e.id, copies := [], entries := [], exits := [] }
  exact ((((removeElement g e.id).trans hcopies).trans (connectAll _ _)).trans
    (connectAll _ _)).trans (connectAll _ _)

theorem flatten (g : FlowGraph) : Evolves g g.flatten.1 := by
  rw [FlowGraph.flatten]
  split
  case h_1 => exact refl g
  case h_2 e inner heq =>
    obtain ⟨he, hk⟩ := firstPart?_eq_some heq
    exact (unfold g e inner).trans (flatten _)
termination_by g.partCount
decreasing_by exact partCount_unfold_lt he hk

theorem rewriteBy (h : g.WellFormed) (r : Rewrite) : Evolves g (g.rewriteBy r) := by
  cases r with
  | flatten => exact flatten g
  | insertCheckpoints => exact of_rewrites h.coherent (insertCheckpoints_rewrites h.coherent)
  | insertIdentities => exact of_rewrites h.coherent (insertIdentities_rewrites h.coherent)
  | splitIdentities => exact of_rewrites h.coherent (splitIdentities_rewrites h.coherent)
  | reduceIdentities => exact of_rewrites h.coherent (reduceIdentities_rewrites h.coherent)
  | normalize =>
    have hflat := (flatten_wellFormed h).coherent
    exact (flatten g).trans (of_rewrites hflat (normalize_rewrites hflat))

end Evolves

theorem edit?_evolves (h : g.WellFormed) {e : Edit} (hk : g.edit? e = some k) : Evolves g k := by
  cases e with
  | input name type => exact Option.some.inj hk ▸ .add g fun hp => by cases hp
  | output name type => exact Option.some.inj hk ▸ .add g fun hp => by cases hp
  | operator name desc inputs outputs boundary =>
    exact Option.some.inj hk ▸ .add g fun hp => by cases hp
  | pseudo name type boundary => exact Option.some.inj hk ▸ .addPseudo g name type boundary
  | flowPart name edits =>
    obtain ⟨inner, -, rfl⟩ := Option.map_eq_some_iff.1 hk
    exact .add g fun hp => by cases hp
  | connect source target => exact Option.some.inj hk ▸ .connect g source target
  | disconnect source target => exact Option.some.inj hk ▸ .disconnect g source target
  | remove i => exact Option.some.inj hk ▸ .removeElement g i
  | rename i name => exact Option.some.inj hk ▸ .rename g i name
  | insertOn c boundary => exact insertPseudoOn?_eq_some hk ▸ .insertPseudoOn g c boundary
  | insertAfter p boundary => exact insertPseudoAfter?_eq_some hk ▸ .insertPseudoAfter g p boundary
  | bypass i => exact Option.some.inj hk ▸ .bypass g i
  | rewrite r => exact Option.some.inj hk ▸ .rewriteBy h r

theorem editAll?_evolves (h : g.WellFormed) {es : List Edit} (hk : g.editAll? es = some k) :
    Evolves g k := by
  induction es generalizing g with
  | nil => exact Option.some.inj hk ▸ .refl g
  | cons e es ih =>
    obtain ⟨m, hm, hk⟩ := Option.bind_eq_some_iff.1 hk
    exact (edit?_evolves h hm).trans (ih (edit?_wellFormed h e hm) hk)

end FlowGraph
end FlowPlan
