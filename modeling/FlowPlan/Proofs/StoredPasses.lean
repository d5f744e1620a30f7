import FlowPlan.Proofs.Flattening
import FlowPlan.Proofs.Rewriting
import FlowPlan.Proofs.StoredChanges

/-!
The steps of normalization on stored graphs.

On the layout of a well-formed graph every step has a result, and it is the layout of what the step
makes of the graph.  The loops go over what was listed before the first change, so each turn has to
find again what the loop began with: checkpoints and identities are only added, and the other loops
look before they read.
-/

namespace FlowPlan
namespace FlowGraph

variable {g k inner : FlowGraph} {e : Element}

/-- The states of two loops that count: the second has the layout of the first, and the elements of
the graph that the loop began with are still there. -/
structure InStep (k : FlowGraph) (a : FlowGraph × Nat) (b : FlowStore × Nat) : Prop where
  layout : b = (a.1.stored, a.2)
  coherent : a.1.Coherent
  kept : ∀ e ∈ k.elements, e ∈ a.1.elements

namespace InStep

variable {a : FlowGraph × Nat} {b : FlowStore × Nat}

theorem start (h : g.Coherent) (n : Nat) : InStep g (g, n) (g.stored, n) := ⟨rfl, h, fun _ he => he⟩

/-- Where nothing has to be kept, the layout is enough. -/
theorem of_layout (hl : b = (a.1.stored, a.2)) (h : a.1.Coherent) : InStep empty a b :=
  ⟨hl, h, fun _ he => absurd he List.not_mem_nil⟩

/-- A loop may forget what it began with. -/
theorem forget (hin : InStep k a b) : InStep empty a b := of_layout hin.layout hin.coherent

end InStep

/-! ## Reading -/

theorem isStageBoundary_stored (g : FlowGraph) :
    g.stored.satisfies (·.isStageBoundary) = g.isStageBoundary :=
  funext (satisfies_stored .isStageBoundary)

theorem isShuffleBoundary_stored (g : FlowGraph) :
    g.stored.satisfies (·.isShuffleBoundary) = g.isShuffleBoundary :=
  funext (satisfies_stored .isShuffleBoundary)

theorem isBoundary_stored (g : FlowGraph) : g.stored.satisfies (·.isBoundary) = g.isBoundary :=
  funext (satisfies_stored .isBoundary)

theorem isCheckpoint_stored (g : FlowGraph) :
    g.stored.satisfies (·.isCheckpoint) = g.isCheckpoint :=
  funext (satisfies_stored .isCheckpoint)

theorem isStageHead_stored (g : FlowGraph) : g.stored.satisfies (·.isStageHead) = g.isStageHead :=
  funext (satisfies_stored .isStageHead)

section Reads

variable (h : g.Coherent)
include h

theorem isMapBody?_stored (i : ElementId) : g.stored.isMapBody? i = some (g.isMapBody i) := by
  simp only [FlowStore.isMapBody?, predecessors?_stored h, successors?_stored h,
    Option.bind_eq_bind, Option.bind_some, isStageBoundary_stored, isBoundary_stored]
  rfl

theorem diverges?_stored (i : ElementId) : g.stored.diverges? i = some (g.diverges i) := by
  have hbehind : ∀ es : List ElementId, es.mapM g.stored.successors? = some (es.map g.successors) :=
    fun es => mapM_eq_map fun x _ => successors?_stored h x
  have hbefore : ∀ es : List ElementId,
      es.mapM g.stored.predecessors? = some (es.map g.predecessors) :=
    fun es => mapM_eq_map fun x _ => predecessors?_stored h x
  simp only [FlowStore.diverges?, successors?_stored h, Option.getD_some, isBoundary_stored,
    isShuffleBoundary_stored, elementIds_stored, hbehind, hbefore, Option.bind_eq_bind,
    Option.bind_some, List.any_map]
  rw [diverges, mergesOthers, reachesShuffle]
  simp only [List.any_filter]
  rfl

end Reads

/-! ## Checkpoints -/

section Checkpoints

variable {a : FlowGraph × Nat} {b : FlowStore × Nat}

/-- A change that only adds, with its count, keeps the loops together. -/
theorem InStep.add {l : FlowGraph} (hin : InStep k a b) (hl : l.Coherent)
    (helements : ∀ e ∈ a.1.elements, e ∈ l.elements) :
    InStep k (l, a.2 + 1) (l.stored, a.2 + 1) :=
  ⟨rfl, hl, fun e he => helements e (hin.kept e he)⟩

theorem InStep.owner?_eq_some (hin : InStep k a b) {p : PortId} (he : e ∈ k.elements)
    (hp : p ∈ e.portIds) : a.1.owner? p = some e :=
  hin.coherent.owner?_eq_some (hin.kept e he) hp

theorem InStep.insertOn (hin : InStep k a b) {c : Connection} (ho : a.1.owner? c.source = some e)
    (boundary : Boundary) : ∃ s, a.1.stored.insertPseudoOn? c boundary = some s ∧
      InStep k (a.1.insertPseudoOn c boundary, a.2 + 1) (s, a.2 + 1) := by
  refine ⟨_, by rw [insertPseudoOn?_stored hin.coherent, insertPseudoOn?, ho]; rfl,
    hin.add (insertPseudoOn_coherent hin.coherent c boundary) fun x hx => ?_⟩
  rw [elements_insertPseudoOn]
  exact List.mem_append_left _ hx

theorem InStep.insertAfter (hin : InStep k a b) {p : PortId} (ho : a.1.owner? p = some e)
    (boundary : Boundary) : ∃ s, a.1.stored.insertPseudoAfter? p boundary = some s ∧
      InStep k (a.1.insertPseudoAfter p boundary, a.2 + 1) (s, a.2 + 1) := by
  refine ⟨_, by rw [insertPseudoAfter?_stored hin.coherent, insertPseudoAfter?, ho]; rfl,
    hin.add (insertPseudoAfter_coherent hin.coherent p boundary) fun x hx => ?_⟩
  rw [elements_insertPseudoAfter]
  exact List.mem_append_left _ hx

theorem checkpointBehind?_stored (hin : InStep k a b) {p : PortId} (he : e ∈ k.elements)
    (hp : p ∈ e.portIds) :
    ∃ b', FlowStore.checkpointBehind? b p = some b' ∧ InStep k (checkpointBehind a p) b' := by
  obtain ⟨s, hs, hin'⟩ := hin.insertAfter (hin.owner?_eq_some he hp) .stage
  obtain rfl := hin.layout
  simp only [FlowStore.checkpointBehind?, opposites_stored, owners_opposites_stored hin.coherent,
    isCheckpoint_stored, Option.bind_eq_bind, Option.bind_some, hs]
  rw [checkpointBehind, isMaterialized]
  split
  · exact ⟨_, rfl, hin⟩
  · exact ⟨_, rfl, hin'⟩

theorem checkpointShuffle?_stored (hin : InStep k a b) (he : e ∈ k.elements) :
    ∃ b', FlowStore.checkpointShuffle? b e.id = some b' ∧
      InStep k (checkpointShuffle a e.id) b' := by
  have hfound := hin.coherent.element?_eq_some (hin.kept e he)
  have hports := foldlM_of_foldl (InStep k) checkpointBehind FlowStore.checkpointBehind? e.outputIds
    (fun p hp _ _ hturn => checkpointBehind?_stored hturn he (Element.mem_portIds.2 (.inr hp))) hin
  obtain rfl := hin.layout
  simp only [FlowStore.checkpointShuffle?, diverges?_stored hin.coherent, element?_stored, hfound,
    Option.map_some, Option.bind_eq_bind, Option.bind_some, Element.outputs_stored]
  rw [checkpointShuffle, hin.coherent.outputsOf_eq (hin.kept e he)]
  split
  · exact hports
  · exact ⟨_, rfl, hin⟩

theorem checkpointOn?_stored (hk : k.Coherent) (hin : InStep k a b) {c : Connection}
    (hc : c ∈ k.connections) :
    ∃ b', FlowStore.checkpointOn? b c = some b' ∧ InStep k (checkpointOn a c) b' := by
  obtain ⟨e, he, hp⟩ := hk.source_mem hc
  have ho := hin.owner?_eq_some he (Element.mem_portIds.2 (.inr hp))
  obtain ⟨s, hs, hin'⟩ := hin.insertOn ho .stage
  obtain rfl := hin.layout
  simp only [FlowStore.checkpointOn?, owner?_stored hin.coherent, ownerId?, ho, Option.map_some,
    Option.bind_eq_bind, Option.bind_some, isStageBoundary_stored,
    hin.coherent.isStageBoundary_eq (hin.kept e he), hs]
  rw [checkpointOn, ho, Option.any_some]
  split
  · exact ⟨_, rfl, hin⟩
  · exact ⟨_, rfl, hin'⟩

theorem checkpointHead?_stored (hin : InStep empty a b) (i : ElementId) :
    ∃ b', FlowStore.checkpointHead? b i = some b' ∧ InStep empty (checkpointHead a i) b' := by
  have hstart : InStep a.1 a b := ⟨hin.layout, hin.coherent, fun _ he => he⟩
  obtain ⟨b', hb', hin'⟩ := foldlM_of_foldl (InStep a.1) checkpointOn FlowStore.checkpointOn?
    (a.1.incoming i) (fun c hc _ _ hturn =>
      checkpointOn?_stored hin.coherent hturn (connected_of_mem_incoming hc)) hstart
  refine ⟨b', ?_, hin'.forget⟩
  rw [FlowStore.checkpointHead?, hin.layout, incoming_stored]
  exact hin.layout ▸ hb'

theorem insertCheckpoints?_stored (h : g.Coherent) :
    g.stored.insertCheckpoints? = some (g.insertCheckpoints.1.stored, g.insertCheckpoints.2) := by
  obtain ⟨b, hb, hin⟩ := foldlM_of_foldl (InStep g) checkpointShuffle FlowStore.checkpointShuffle?
    (g.idsWhere (·.isShuffleBoundary)) (fun i hi _ _ hturn => by
      obtain ⟨e, he, -, rfl⟩ := mem_idsWhere.1 hi
      exact checkpointShuffle?_stored hturn he) (.start h 0)
  obtain ⟨b', hb', hin'⟩ := foldlM_of_foldl (InStep empty) checkpointHead FlowStore.checkpointHead?
    (b.1.idsWhere (·.isStageHead)) (fun i _ _ _ hturn => checkpointHead?_stored hturn i) hin.forget
  rw [FlowStore.insertCheckpoints?, idsWhere_stored .isShuffleBoundary, hb, Option.bind_eq_bind,
    Option.bind_some, hb', hin'.layout, insertCheckpoints, hin.layout, idsWhere_stored .isStageHead]

end Checkpoints

/-! ## Identities -/

section Identities

variable {a : FlowGraph × Nat} {b : FlowStore × Nat}

theorem identityOn?_stored (hk : k.Coherent) (hin : InStep k a b) {c : Connection}
    (hc : c ∈ k.connections) :
    ∃ b', FlowStore.identityOn? b c = some b' ∧ InStep k (identityOn a c) b' := by
  obtain ⟨x, hx, hp⟩ := hk.source_mem hc
  obtain ⟨y, hy, hq⟩ := hk.target_mem hc
  have hsource := hin.owner?_eq_some hx (Element.mem_portIds.2 (.inr hp))
  have htarget := hin.owner?_eq_some hy (Element.mem_portIds.2 (.inl hq))
  obtain ⟨s, hs, hin'⟩ := hin.insertOn hsource .none
  obtain rfl := hin.layout
  have hxa := hin.coherent.element?_eq_some (hin.kept x hx)
  have hya := hin.coherent.element?_eq_some (hin.kept y hy)
  simp only [FlowStore.identityOn?, owner?_stored hin.coherent, ownerId?, hsource, htarget,
    Option.map_some, Option.bind_eq_bind, Option.bind_some, isStageBoundary_stored,
    isShuffleBoundary_stored, isStageHead_stored, isStageBoundary, isShuffleBoundary, isStageHead,
    hxa, hya, Option.any_some, hs]
  rw [identityOn, lacksMap, hsource, htarget, Option.any_some, Option.any_some]
  split
  · exact ⟨_, rfl, hin'⟩
  · exact ⟨_, rfl, hin⟩

theorem insertIdentities?_stored (h : g.Coherent) :
    g.stored.insertIdentities? = some (g.insertIdentities.1.stored, g.insertIdentities.2) := by
  obtain ⟨b, hb, hin⟩ := foldlM_of_foldl (InStep g) identityOn FlowStore.identityOn? g.connections
    (fun c hc _ _ hturn => identityOn?_stored h hturn hc) (.start h 0)
  rw [FlowStore.insertIdentities?, connections_stored, hb, hin.layout, insertIdentities]

theorem addShare?_stored (h : g.Coherent) (name type : String)
    (pair : (Connection × Connection) × Nat) :
    FlowStore.addShare? name type g.stored pair = some (addShare name type g pair).stored := by
  obtain ⟨⟨i, o⟩, n⟩ := pair
  have hadd := add_coherent h (ElementDecl.pseudo_shaped s!"{name}~{n}" type .none)
  have hentry := entry?_stored (k := g.add (.pseudo s!"{name}~{n}" type .none)) h rfl
  have hexit := exit?_stored (k := g.add (.pseudo s!"{name}~{n}" type .none)) h rfl
  simp only [FlowStore.addShare?, addPseudo_stored h, hentry, hexit, Option.bind_eq_bind,
    Option.bind_some, connect_stored hadd, connect_stored (connect_coherent hadd _ _)]
  rfl

theorem addShares?_stored (h : g.Coherent) (name type : String)
    (pairs : List ((Connection × Connection) × Nat)) :
    pairs.foldlM (FlowStore.addShare? name type) g.stored
      = some (g.addShares name type pairs).stored := by
  obtain ⟨s, hs, rfl, -⟩ := foldlM_of_foldl (fun k s => s = k.stored ∧ k.Coherent)
    (addShare name type) (FlowStore.addShare? name type) pairs
    (fun pair _ k s hk => ⟨_, hk.1 ▸ addShare?_stored hk.2 name type pair, rfl,
      addShare_coherent hk.2 name type pair⟩) ⟨rfl, h⟩
  exact hs

theorem splitIfShared?_stored (hin : InStep empty a b) (i : ElementId) :
    ∃ b', FlowStore.splitIfShared? b i = some b' ∧ InStep empty (splitIfShared a i) b' := by
  obtain rfl := hin.layout
  have h := hin.coherent
  simp only [FlowStore.splitIfShared?, incoming_stored, outgoing_stored]
  rw [splitIfShared]
  split
  · exact ⟨_, rfl, hin⟩
  · rename_i hshared
    cases hfound : a.1.element? i with
    | none =>
      rw [incoming, inputsOf, hfound] at hshared
      exact absurd (.inl (Nat.zero_le 1)) hshared
    | some e =>
      obtain ⟨he, rfl⟩ := mem_of_element?_eq_some hfound
      have htype : a.1.stored.firstType e.inputIds = firstType e.inputs :=
        firstType_stored h he fun q hq => List.mem_append_left e.outputs hq
      have hshares := addShares?_stored h e.name (firstType e.inputs)
        ((a.1.throughputs e.id).zipIdx 1)
      have hremove := removeElement_stored (addShares_coherent h e.name (firstType e.inputs)
        ((a.1.throughputs e.id).zipIdx 1)) e.id
      refine ⟨((a.1.splitIdentity e.id).stored, a.2 + 1), ?_,
        .of_layout rfl (splitIdentity_coherent h he)⟩
      simp only [element?_stored, hfound, Option.map_some, Option.bind_eq_bind, Option.bind_some,
        Element.name_stored, Element.inputs_stored, htype]
      rw [← throughputs, hshares, Option.bind_some, hremove, splitIdentity_eq, nameOf, inputsOf,
        hfound]
      rfl

theorem splitIdentities?_stored (h : g.Coherent) :
    g.stored.splitIdentities? = some (g.splitIdentities.1.stored, g.splitIdentities.2) := by
  obtain ⟨b, hb, hin⟩ := foldlM_of_foldl (InStep empty) splitIfShared FlowStore.splitIfShared?
    g.identities (fun i _ _ _ hturn => splitIfShared?_stored hturn i) (InStep.start h 0).forget
  rw [FlowStore.splitIdentities?, idsWhere_stored .isIdentity]
  exact hb.trans (congrArg some hin.layout)

theorem bypassUnlessMap?_stored (hin : InStep empty a b) (i : ElementId) :
    ∃ b', FlowStore.bypassUnlessMap? b i = some b' ∧ InStep empty (bypassUnlessMap a i) b' := by
  obtain rfl := hin.layout
  have h := hin.coherent
  simp only [FlowStore.bypassUnlessMap?, contains_stored, isMapBody?_stored h, bypass_stored h,
    Option.bind_eq_bind, Option.bind_some]
  rw [bypassUnlessMap]
  cases hthere : a.1.contains i with
  | false => exact ⟨_, rfl, hin⟩
  | true =>
    obtain ⟨e, he, hid⟩ := List.any_eq_true.1 hthere
    obtain rfl := beq_iff_eq.1 hid
    rw [Bool.not_true, Bool.false_or, if_neg Bool.false_ne_true]
    split
    · exact ⟨_, rfl, hin⟩
    · exact ⟨_, rfl, .of_layout rfl (bypass_coherent h he)⟩

theorem reduceIdentities?_stored (h : g.Coherent) :
    g.stored.reduceIdentities? = some (g.reduceIdentities.1.stored, g.reduceIdentities.2) := by
  obtain ⟨b, hb, hin⟩ := foldlM_of_foldl (InStep empty) bypassUnlessMap FlowStore.bypassUnlessMap?
    g.identities (fun i _ _ _ hturn => bypassUnlessMap?_stored hturn i) (InStep.start h 0).forget
  rw [FlowStore.reduceIdentities?, idsWhere_stored .isIdentity]
  exact hb.trans (congrArg some hin.layout)

end Identities

end FlowGraph
end FlowPlan
