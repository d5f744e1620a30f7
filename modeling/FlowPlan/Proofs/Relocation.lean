import FlowPlan.Proofs.Nets

/-!
What replacing a part does to ports.

The ports of other elements stay, the ports of the part become the entries and exits, and a port in
the part becomes the port of the copy at the same place.  The copies have ports that were not in
use, so nothing is mixed up.
-/

namespace FlowPlan
namespace FlowGraph

variable {g inner : FlowGraph} {e x y z : Element}

/-! ## The shape of copies -/

theorem isInput_iff : x.isInput = true ↔ x.kind = .input := by
  unfold Element.isInput
  cases x.kind <;> simp [ElementKind.isInput]

theorem isOutput_iff : x.isOutput = true ↔ x.kind = .output := by
  unfold Element.isOutput
  cases x.kind <;> simp [ElementKind.isOutput]

theorem inputIds_eq_nil (hx : x.Shaped) (hin : x.isInput = true) : x.inputIds = [] := by
  rw [Element.Shaped, isInput_iff.1 hin] at hx
  rw [Element.inputIds, List.map_eq_nil_iff.1 hx.2.1, List.map_nil]

theorem outputIds_eq_nil (hx : x.Shaped) (hout : x.isOutput = true) : x.outputIds = [] := by
  rw [Element.Shaped, isOutput_iff.1 hout] at hx
  rw [Element.outputIds, List.map_eq_nil_iff.1 hx.2.2, List.map_nil]

/-- A copy has as many ports as its original, except that the end of a flow gains one. -/
theorem length_copyOf {part : String} (hx : x.Shaped) (hy : y.decl = copyOf part x) :
    y.inputIds.length = (if x.isInput then 1 else x.inputIds.length) ∧
      y.outputIds.length = (if x.isOutput then 1 else x.outputIds.length) := by
  rw [length_inputIds, length_outputIds, length_inputIds, length_outputIds, hy]
  unfold Element.Shaped HasShape at hx
  unfold copyOf Element.isInput Element.isOutput
  cases hk : x.kind <;> rw [hk] at hx <;>
    simp_all [ElementDecl.pseudo, ElementDecl.operator, ElementDecl.flowPart, ElementKind.isInput,
      ElementKind.isOutput, Element.decl]

theorem map_fst_pairedPorts {part : String} (hx : x.Shaped) (hy : y.decl = copyOf part x) :
    (pairedPorts (x, y)).map (·.1) = x.portIds := by
  obtain ⟨hin, hout⟩ := length_copyOf hx hy
  rw [pairedPorts, List.map_append, Element.portIds_eq]
  congr 1
  · split
    case isTrue h => rw [inputIds_eq_nil hx h]; rfl
    case isFalse h =>
      rw [if_neg h] at hin
      exact List.map_fst_zip (Nat.le_of_eq hin.symm)
  · split
    case isTrue h => rw [outputIds_eq_nil hx h]; rfl
    case isFalse h =>
      rw [if_neg h] at hout
      exact List.map_fst_zip (Nat.le_of_eq hout.symm)

theorem fresh_of_mem_copiesIn {part : String} {g : FlowGraph} {xs : List Element}
    (h : (x, y) ∈ copiesIn part g xs) : ∀ p ∈ y.portIds, g.ids.nextPort ≤ p := by
  induction xs generalizing g with
  | nil => cases h
  | cons x' xs ih =>
    intro p hp
    rcases List.mem_cons.1 h with heq | h
    · obtain ⟨rfl, rfl⟩ := Prod.mk.inj heq
      rw [portIds_numbered] at hp
      exact (List.mem_range'_1.1 hp).1
    · refine Nat.le_trans ?_ (ih h p hp)
      rw [ids_add]
      exact Nat.le_add_right _ _

/-! ## What the replacement has put together -/

theorem unfolding_spec (g : FlowGraph) (e : Element) (inner : FlowGraph) :
    (g.unfolding e inner).graph.elements
        = (g.removeElement e.id).elements ++ (g.copies e inner).map (·.2)
      ∧ (g.unfolding e inner).graph.connections = (g.removeElement e.id).connections
      ∧ (g.unfolding e inner).copies = (g.copies e inner).flatMap pairedPorts
      ∧ (g.unfolding e inner).entries = (g.copies e inner).flatMap entryPorts
      ∧ (g.unfolding e inner).exits = (g.copies e inner).flatMap exitPorts := by
  have hspec := foldl_step_eq e.name inner.elements
    { graph := g.removeElement e.id, copies := [], entries := [], exits := [] }
  simp only [List.nil_append] at hspec
  exact hspec

theorem elements_unfold (g : FlowGraph) (e : Element) (inner : FlowGraph) :
    (g.unfold e inner).elements
      = (g.removeElement e.id).elements ++ (g.copies e inner).map (·.2) := by
  rw [← (unfolding_spec g e inner).1, unfold, elements_connectAll, elements_connectAll,
    elements_connectAll]
  rfl

theorem exists_copy (hx : x ∈ inner.elements) : ∃ y, (x, y) ∈ g.copies e inner := by
  rw [← map_fst_copiesIn e.name (g.removeElement e.id) inner.elements] at hx
  obtain ⟨⟨x', y⟩, hxy, rfl⟩ := List.mem_map.1 hx
  exact ⟨y, hxy⟩

theorem length_ends (p : Element → Bool) (f : Element × Element → List PortId)
    (hf : ∀ pair ∈ g.copies e inner, (f pair).length = if p pair.1 then 1 else 0) :
    ((g.copies e inner).flatMap f).length = (inner.elements.filter p).length := by
  conv => rhs; rw [← map_fst_copiesIn e.name (g.removeElement e.id) inner.elements]
  show ((g.copies e inner).flatMap f).length = (((g.copies e inner).map (·.1)).filter p).length
  generalize g.copies e inner = pairs at hf
  induction pairs with
  | nil => rfl
  | cons pair pairs ih =>
    rw [List.flatMap_cons, List.length_append, hf pair List.mem_cons_self, List.map_cons,
      ih fun pair' hpair' => hf pair' (List.mem_cons_of_mem _ hpair')]
    by_cases hp : p pair.1 <;> simp [hp]; omega

section Part

variable (h : g.WellFormed) (he : e ∈ g.elements) (hk : e.kind = .flowPart inner)

include h he hk

omit hk in
theorem mem_elements_unfold :
    z ∈ (g.unfold e inner).elements ↔
      (z ∈ g.elements ∧ z ≠ e) ∨ ∃ x, (x, z) ∈ g.copies e inner := by
  rw [elements_unfold, List.mem_append, mem_removeElement h.coherent he]
  simp

theorem mem_of_mem_copies (hxy : (x, y) ∈ g.copies e inner) :
    x ∈ inner.elements ∧ x.Shaped ∧ y.decl = copyOf e.name x ∧
      y ∈ (g.unfold e inner).elements := by
  obtain ⟨hx, hy⟩ := decl_of_mem_copiesIn hxy
  exact ⟨hx, (h.inner he hk).coherent.shaped x hx, hy,
    (mem_elements_unfold h he).2 (.inr ⟨x, hxy⟩)⟩

/-- A copy is the copy of one element. -/
theorem eq_of_copy_eq {x' : Element} (hxy : (x, y) ∈ g.copies e inner)
    (hxy' : (x', y) ∈ g.copies e inner) : x = x' := by
  have hn : ((g.copies e inner).map (·.2)).Nodup := by
    have hall := (unfold_wellFormed h he hk).coherent.elements_nodup
    rw [elements_unfold] at hall
    exact (List.nodup_append.1 hall).2.1
  exact congrArg Prod.fst (List.inj_on_of_nodup_map hn hxy hxy' rfl)

omit hk in
theorem fresh_of_mem_copies (hxy : (x, y) ∈ g.copies e inner) {p : PortId} (hp : p ∈ y.portIds) :
    g.ids.nextPort ≤ p := by
  have hfresh := fresh_of_mem_copiesIn hxy p hp
  rwa [ids_removeElement h.coherent he] at hfresh

omit hk in
/-- No port is both at an element that was there and at a copy. -/
theorem not_mem_copy {w : Element} (hw : w ∈ g.elements) {p : PortId} (hp : p ∈ w.portIds)
    (hxy : (x, y) ∈ g.copies e inner) : p ∉ y.portIds := by
  intro hpy
  have hle := fresh_of_mem_copies h he hxy hpy
  exact absurd (h.coherent.portsBelow w hw p hp) (Nat.not_lt.2 hle)

/-! ## Relocated ports -/

theorem keys_copies :
    ((g.unfolding e inner).copies.map (·.1)) = inner.elements.flatMap (·.portIds) := by
  rw [(unfolding_spec g e inner).2.2.1, List.map_flatMap]
  conv => rhs; rw [← map_fst_copiesIn e.name (g.removeElement e.id) inner.elements,
    List.flatMap_map]
  refine List.flatMap_congr fun ⟨x, y⟩ hxy => ?_
  obtain ⟨-, hx, hy, -⟩ := mem_of_mem_copies h he hk hxy
  exact map_fst_pairedPorts hx hy

/-- The ports in a part go to the ports of the copy at the same place. -/
theorem map_copiedPort (hxy : (x, y) ∈ g.copies e inner) :
    (x.isInput = false → x.inputIds.map (g.copiedPort e inner) = y.inputIds) ∧
      (x.isOutput = false → x.outputIds.map (g.copiedPort e inner) = y.outputIds) := by
  obtain ⟨-, hx, hy, -⟩ := mem_of_mem_copies h he hk hxy
  obtain ⟨hlenIn, hlenOut⟩ := length_copyOf hx hy
  have hkeys : ((g.unfolding e inner).copies.map (·.1)).Nodup := by
    rw [keys_copies h he hk]
    exact (h.inner he hk).coherent.portsOnce
  have hsub : ∀ p ∈ pairedPorts (x, y), p ∈ (g.unfolding e inner).copies := by
    intro p hp
    rw [(unfolding_spec g e inner).2.2.1]
    exact List.mem_flatMap.2 ⟨_, hxy, hp⟩
  constructor
  · intro hin
    exact map_lookup_eq hkeys (by rw [hlenIn, hin]; rfl)
      fun p hp => hsub p (by simp [pairedPorts, hin, hp])
  · intro hout
    exact map_lookup_eq hkeys (by rw [hlenOut, hout]; rfl)
      fun p hp => hsub p (by simp [pairedPorts, hout, hp])

theorem relocate_copied (hxy : (x, y) ∈ g.copies e inner) :
    (x.isInput = false →
        x.inputIds.map (fun q => g.relocate e inner (.under e.id (.here q)))
          = y.inputIds.map .here) ∧
      (x.isOutput = false →
        x.outputIds.map (fun q => g.relocate e inner (.under e.id (.here q)))
          = y.outputIds.map .here) := by
  obtain ⟨hin, hout⟩ := map_copiedPort h he hk hxy
  simp only [relocate_under_here]
  constructor
  · intro hx
    rw [← hin hx, List.map_map]
    rfl
  · intro hx
    rw [← hout hx, List.map_map]
    rfl

theorem relocate_nested (hxy : (x, y) ∈ g.copies e inner) (s : Spot) :
    g.relocate e inner (.under e.id (.under x.id s)) = .under y.id s := by
  have hkeys : (((g.copies e inner).map fun c => (c.1.id, c.2.id)).map (·.1)).Nodup := by
    rw [List.map_map]
    have hfst : (g.copies e inner).map ((·.1) ∘ fun c => (c.1.id, c.2.id))
        = inner.elements.map (·.id) := by
      conv => rhs; rw [← map_fst_copiesIn e.name (g.removeElement e.id) inner.elements,
        List.map_map]
      rfl
    rw [hfst]
    exact (h.inner he hk).coherent.elementIds_nodup
  have hlookup := lookup_of_mem hkeys (List.mem_map.2 ⟨_, hxy, rfl⟩ : (x.id, y.id) ∈ _)
  have hcopied : g.copiedElement e inner x.id = y.id := by
    show (((g.copies e inner).map fun c => (c.1.id, c.2.id)).lookup x.id).getD x.id = y.id
    rw [hlookup]
    rfl
  simp [relocate, Spot.under, hcopied]

/-! ### The ports of the part -/

/-- The part has a port for each end of its flow. -/
theorem length_exposed :
    (inner.elements.filter (·.isInput)).length = e.inputIds.length ∧
      (inner.elements.filter (·.isOutput)).length = e.outputIds.length := by
  have hshape := h.coherent.shaped e he
  rw [Element.Shaped, hk] at hshape
  have hins : e.decl.inputs = inner.exposedInputs := hshape.2.1
  have houts : e.decl.outputs = inner.exposedOutputs := hshape.2.2
  rw [length_inputIds, length_outputIds, hins, houts, exposedInputs, exposedOutputs,
    List.length_map, List.length_map]
  exact ⟨rfl, rfl⟩

theorem length_entries : (g.unfolding e inner).entries.length = e.inputIds.length := by
  rw [(unfolding_spec g e inner).2.2.2.1, ← (length_exposed h he hk).1, length_ends (·.isInput)]
  rintro ⟨x, y⟩ hxy
  obtain ⟨-, hx, hy, -⟩ := mem_of_mem_copies h he hk hxy
  have hlen := (length_copyOf hx hy).1
  unfold entryPorts
  split <;> simp_all

theorem length_exits : (g.unfolding e inner).exits.length = e.outputIds.length := by
  rw [(unfolding_spec g e inner).2.2.2.2, ← (length_exposed h he hk).2, length_ends (·.isOutput)]
  rintro ⟨x, y⟩ hxy
  obtain ⟨-, hx, hy, -⟩ := mem_of_mem_copies h he hk hxy
  have hlen := (length_copyOf hx hy).2
  unfold exitPorts
  split <;> simp_all

theorem keys_ends :
    (e.inputIds.zip (g.unfolding e inner).entries
      ++ e.outputIds.zip (g.unfolding e inner).exits).map (·.1) = e.portIds := by
  rw [List.map_append, List.map_fst_zip (Nat.le_of_eq (length_entries h he hk).symm),
    List.map_fst_zip (Nat.le_of_eq (length_exits h he hk).symm), Element.portIds_eq]

/-- The ports of the part go to the entries and exits, by position. -/
theorem map_movedPort :
    e.inputIds.map (g.movedPort e inner) = (g.unfolding e inner).entries ∧
      e.outputIds.map (g.movedPort e inner) = (g.unfolding e inner).exits := by
  have hkeys : ((e.inputIds.zip (g.unfolding e inner).entries
      ++ e.outputIds.zip (g.unfolding e inner).exits).map (·.1)).Nodup := by
    rw [keys_ends h he hk]
    exact h.coherent.portIds_nodup he
  exact ⟨map_lookup_eq hkeys (length_entries h he hk).symm fun _ => List.mem_append_left _,
    map_lookup_eq hkeys (length_exits h he hk).symm fun _ => List.mem_append_right _⟩

theorem relocate_ends :
    e.inputIds.map (fun p => g.relocate e inner (.here p))
        = (g.unfolding e inner).entries.map .here ∧
      e.outputIds.map (fun p => g.relocate e inner (.here p))
        = (g.unfolding e inner).exits.map .here := by
  obtain ⟨hin, hout⟩ := map_movedPort h he hk
  simp only [relocate_here]
  constructor
  · rw [← hin, List.map_map]
    rfl
  · rw [← hout, List.map_map]
    rfl

/-- What is not at the part stays where it is. -/
theorem movedPort_other (hx : x ∈ g.elements) (hne : x ≠ e) {p : PortId} (hp : p ∈ x.portIds) :
    g.movedPort e inner p = p := by
  have hout : p ∉ (e.inputIds.zip (g.unfolding e inner).entries
      ++ e.outputIds.zip (g.unfolding e inner).exits).map (·.1) := by
    rw [keys_ends h he hk]
    exact fun hpe => hne (h.coherent.eq_of_port hx he hp hpe)
  simp only [movedPort, lookup_of_not_mem hout, Option.getD_none]

theorem relocate_other (hx : x ∈ g.elements) (hne : x ≠ e) :
    (∀ p ∈ x.portIds, g.relocate e inner (.here p) = .here p) ∧
      ∀ s, g.relocate e inner (.under x.id s) = .under x.id s := by
  constructor
  · intro p hp
    rw [relocate_here, movedPort_other h he hk hx hne hp]
  · intro s
    have hid : x.id ≠ e.id := fun hid => hne (h.coherent.eq_of_id_eq hx he hid)
    simp [relocate, Spot.under, hid]

end Part

end FlowGraph
end FlowPlan
