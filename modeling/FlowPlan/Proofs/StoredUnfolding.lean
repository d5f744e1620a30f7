import FlowPlan.Proofs.Flattening
import FlowPlan.Proofs.StoredChanges

/-!
Flattening of stored graphs.

The copies are made one after the other, each by reading the tables of the inner flow, and the
identities that stand for its inputs and outputs are looked up again at the end.  `Copying` says
how far the two replacements have come: the same copies, and identities whose first ports are the
entries and exits.
-/

namespace FlowPlan
namespace FlowGraph

variable {g inner : FlowGraph} {e : Element} {part : String}

/-! ## One copy -/

section Copy

variable (h : g.Coherent)
include h

theorem addOperator_stored (name : String) (desc : OperatorDesc) (inputs outputs : List PortDecl)
    (boundary : Boundary) :
    g.stored.addOperator name desc inputs outputs boundary
      = (g.ids.nextElement, (g.add (.operator name desc inputs outputs boundary)).stored) :=
  addElement_stored h (.operator name desc inputs outputs boundary)
    (by rw [ElementDecl.operator, ElementKind.stored])

/-- A part is added with the ports that its flow exposes. -/
theorem addFlowPart?_stored (hinner : inner.Coherent) (name : String) :
    g.stored.addFlowPart? name inner.stored
      = some (g.ids.nextElement, (g.add (.flowPart name inner)).stored) := by
  have hadd := addElement_stored h (.flowPart name inner)
    (by rw [ElementDecl.flowPart, ElementKind.stored])
  simp only [FlowStore.addFlowPart?, exposedInputs?_stored hinner, exposedOutputs?_stored hinner,
    Option.bind_eq_bind, Option.bind_some]
  exact congrArg some hadd

theorem addCopy?_stored (hinner : inner.WellFormed) (he : e ∈ inner.elements) (part : String) :
    g.stored.addCopy? inner.stored part e.stored
      = some (g.ids.nextElement, (g.add (copyOf part e)).stored) := by
  have hin : inner.stored.firstType e.inputIds = firstType e.inputs :=
    firstType_stored hinner.coherent he fun _ hq => List.mem_append_left _ hq
  have hout : inner.stored.firstType e.outputIds = firstType e.outputs :=
    firstType_stored hinner.coherent he fun _ hq => List.mem_append_right _ hq
  have hins : e.inputIds.mapM inner.stored.decl? = some (decls e.inputs) :=
    decls_stored hinner.coherent he fun _ hq => List.mem_append_left _ hq
  have houts : e.outputIds.mapM inner.stored.decl? = some (decls e.outputs) :=
    decls_stored hinner.coherent he fun _ hq => List.mem_append_right _ hq
  rw [FlowStore.addCopy?, copyOf, Element.kind_stored, Element.name_stored, Element.inputs_stored,
    Element.outputs_stored, Element.boundary_stored]
  cases hk : e.kind with
  | input => simp only [ElementKind.stored, hout, addPseudo_stored h]
  | output => simp only [ElementKind.stored, hin, addPseudo_stored h]
  | operator desc =>
    simp only [ElementKind.stored, hins, houts, Option.bind_eq_bind, Option.bind_some,
      addOperator_stored h]
    rfl
  | pseudo => simp only [ElementKind.stored, hin, addPseudo_stored h]
  | flowPart nested =>
    simp only [ElementKind.stored]
    exact addFlowPart?_stored h (hinner.inner he hk).coherent _

end Copy

/-! ## All copies -/

/-- Both replacements have come equally far. -/
structure Copying (u : Unfolding) (t : FlowStore.Inlining) : Prop where
  coherent : u.graph.Coherent
  store : t.store = u.graph.stored
  copies : t.copies = u.copies
  entries : List.Forall₂ (fun i p => t.store.entry? i = some p) t.entries u.entries
  exits : List.Forall₂ (fun i p => t.store.exit? i = some p) t.exits u.exits

theorem element?_add_of_some {d : ElementDecl} {i : ElementId} (hfound : g.element? i = some e) :
    (g.add d).element? i = some e := by
  rw [element?, elements_add, List.find?_append, ← element?, hfound, Option.some_or]

theorem entry?_add {d : ElementDecl} {i : ElementId} {p : PortId}
    (hentry : g.stored.entry? i = some p) : (g.add d).stored.entry? i = some p := by
  rw [FlowStore.entry?, element?_stored] at hentry ⊢
  cases hfound : g.element? i with
  | none => rw [hfound] at hentry; cases hentry
  | some e => rw [element?_add_of_some hfound, ← hfound]; exact hentry

theorem exit?_add {d : ElementDecl} {i : ElementId} {p : PortId}
    (hexit : g.stored.exit? i = some p) : (g.add d).stored.exit? i = some p := by
  rw [FlowStore.exit?, element?_stored] at hexit ⊢
  cases hfound : g.element? i with
  | none => rw [hfound] at hexit; cases hexit
  | some e => rw [element?_add_of_some hfound, ← hfound]; exact hexit

/-- What stands for an input is an identity, and its first port is what it receives at. -/
theorem entry?_copy (h : g.Coherent) (part : String) (he : e.isInput = true) :
    ∃ p, (g.add (copyOf part e)).stored.entry? g.ids.nextElement = some p ∧
      ((g.numbered (copyOf part e)).inputs.take 1).map (·.id) = [p] := by
  obtain ⟨_, _, kind, _, _, _⟩ := e
  cases kind <;> cases he
  exact ⟨g.entry, entry?_stored h rfl, rfl⟩

theorem exit?_copy (h : g.Coherent) (part : String) (he : e.isOutput = true) :
    ∃ p, (g.add (copyOf part e)).stored.exit? g.ids.nextElement = some p ∧
      ((g.numbered (copyOf part e)).outputs.take 1).map (·.id) = [p] := by
  obtain ⟨_, _, kind, _, _, _⟩ := e
  cases kind <;> cases he
  exact ⟨g.exit, exit?_stored h rfl, rfl⟩

theorem copying_step {u : Unfolding} {t : FlowStore.Inlining} (hinner : inner.WellFormed)
    (he : e ∈ inner.elements) (hut : Copying u t) :
    ∃ t', FlowStore.Inlining.step? inner.stored part t e.stored = some t' ∧
      Copying (Unfolding.step part u e) t' := by
  have hcopy := addCopy?_stored hut.coherent hinner he part
  have hfound := element?_add hut.coherent (copyOf_shaped part e)
  have hin : e.stored.plain.isInput = e.isInput := OnPlain.isInput e
  have hout : e.stored.plain.isOutput = e.isOutput := OnPlain.isOutput e
  have hentries := hut.entries
  have hexits := hut.exits
  rw [hut.store] at hentries hexits
  simp only [FlowStore.Inlining.step?, hut.store, hcopy, element?_stored, hfound, Option.map_some,
    Option.bind_eq_bind, Option.bind_some, hin, hout]
  refine ⟨_, rfl, add_coherent hut.coherent (copyOf_shaped part e), rfl, ?_, ?_, ?_⟩
  · simp only [Element.inputs_stored, Element.outputs_stored, hut.copies]
    rfl
  · refine List.rel_append (hentries.imp fun i p hp => entry?_add hp) ?_
    split
    case isTrue hinput =>
      obtain ⟨p, hp, hports⟩ := entry?_copy hut.coherent part hinput
      rw [hports]
      exact .cons hp .nil
    case isFalse => exact .nil
  · refine List.rel_append (hexits.imp fun i p hp => exit?_add hp) ?_
    split
    case isTrue houtput =>
      obtain ⟨p, hp, hports⟩ := exit?_copy hut.coherent part houtput
      rw [hports]
      exact .cons hp .nil
    case isFalse => exact .nil

/-! ## Connections of the part -/

/-- The first ports of the identities, read one by one, are the entries or exits. -/
theorem mapM_zip {α β γ δ : Type} {f : β → Option γ} {is : List β} {ps : List γ}
    (h : List.Forall₂ (fun i p => f i = some p) is ps) (r : α → γ → δ) (xs : List α) :
    (xs.zip is).mapM (fun x => (f x.2).map (r x.1))
      = some ((xs.zip ps).map fun x => r x.1 x.2) := by
  induction h generalizing xs with
  | nil => rw [List.zip_nil_right, List.zip_nil_right]; rfl
  | cons hip _ ih =>
    cases xs with
    | nil => rfl
    | cons x xs => simp [List.mapM_cons, hip, ih xs]

theorem unfoldPart?_stored (h : g.WellFormed) (he : e ∈ g.elements)
    (hk : e.kind = .flowPart inner) :
    g.stored.unfoldPart? e.stored inner.stored = some (g.unfold e inner).stored := by
  have hinner := h.inner he hk
  have hstart : Copying ⟨g.removeElement e.id, [], [], []⟩
      ⟨(g.removeElement e.id).stored, [], [], []⟩ :=
    ⟨removeElement_coherent h.coherent he, rfl, rfl, .nil, .nil⟩
  obtain ⟨t, ht, hut⟩ := foldlM_of_foldl Copying (Unfolding.step e.name)
    (fun t (x : Element) => FlowStore.Inlining.step? inner.stored e.name t x.stored) inner.elements
    (fun x hx _ _ hut => copying_step hinner hx hut) hstart
  have hopposites : ∀ ps : List Port, (ps.map (·.id)).map g.stored.opposites
      = ps.map fun p => g.opposites p.id := by
    intro ps
    rw [List.map_map]
    exact List.map_congr_left fun p _ => opposites_stored g p.id
  rw [FlowStore.unfoldPart?, unfold]
  simp only [Element.id_stored, Element.name_stored, Element.inputs_stored, Element.outputs_stored,
    removeElement_stored h.coherent, elements_stored, List.foldlM_map, connections_stored, ht,
    Option.bind_eq_bind, Option.bind_some, Element.inputIds, Element.outputIds, hopposites]
  generalize inner.elements.foldl (Unfolding.step e.name) _ = u at hut ⊢
  have hbefore := mapM_zip hut.entries (fun us entry => us.map fun v : PortId => (v, entry))
    (e.inputs.map fun p => g.opposites p.id)
  have hbehind := mapM_zip hut.exits (fun ds exit => ds.map fun d : PortId => (exit, d))
    (e.outputs.map fun p => g.opposites p.id)
  beta_reduce at hbefore hbehind
  rw [hbefore, hbehind, hut.store, hut.copies]
  have hinside := fun pairs => connectAll_coherent hut.coherent pairs
  simp only [Option.bind_some, connectAll_stored hut.coherent, connectAll_stored (hinside _),
    connectAll_stored (connectAll_coherent (hinside _) _), List.flatMap_def]
  rfl

/-! ## Flattening -/

theorem firstPart?_stored (g : FlowGraph) :
    g.stored.firstPart? = g.firstPart?.map fun part => (part.1.stored, part.2.stored) := by
  rw [FlowStore.firstPart?, firstPart?, elements_stored, List.findSome?_map]
  induction g.elements with
  | nil => rfl
  | cons e es ih =>
    rw [List.findSome?_cons, List.findSome?_cons, ih, Function.comp_apply, Element.kind_stored]
    cases e.kind <;> simp [ElementKind.stored]

theorem flatten?_of_none {s : FlowStore} (hpart : s.firstPart? = none) :
    s.flatten? = some (s, 0) := by
  rw [FlowStore.flatten?]
  split
  case h_1 => rfl
  case h_2 heq => rw [hpart] at heq; cases heq

theorem flatten?_of_some {s t inner : FlowStore} {e : StoredElement}
    (hpart : s.firstPart? = some (e, inner)) (hunfold : s.unfoldPart? e inner = some t) :
    s.flatten? = t.flatten?.map fun r => (r.1, r.2 + 1) := by
  rw [FlowStore.flatten?]
  split
  case h_1 heq => rw [hpart] at heq; cases heq
  case h_2 heq =>
    rw [hpart] at heq
    cases heq
    split
    case h_1 heq => rw [hunfold] at heq; cases heq
    case h_2 heq =>
      rw [hunfold] at heq
      cases heq
      rfl

theorem flatten?_stored {g : FlowGraph} (h : g.WellFormed) :
    g.stored.flatten? = some (g.flatten.1.stored, g.flatten.2) := by
  have hpart := firstPart?_stored g
  rw [flatten]
  split
  case h_1 hnone =>
    rw [hnone] at hpart
    exact flatten?_of_none hpart
  case h_2 e inner hsome =>
    obtain ⟨he, hk⟩ := firstPart?_eq_some hsome
    rw [hsome] at hpart
    rw [flatten?_of_some hpart (unfoldPart?_stored h he hk),
      flatten?_stored (unfold_wellFormed h he hk), Option.map_some]
termination_by g.partCount
decreasing_by exact partCount_unfold_lt he hk

end FlowGraph
end FlowPlan
