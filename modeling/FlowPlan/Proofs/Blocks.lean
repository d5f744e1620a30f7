import FlowPlan.Proofs.Neighbours
import FlowPlan.Proofs.Searching
import FlowPlan.StageGraph.Blocks
import Mathlib.Data.List.Pairwise

/-!
How the blocks divide a flow graph.

Every element but a checkpoint is in one block and in no other, and the ports of a block are ports
of its elements.  A block is found at the position of its number.
-/

namespace FlowPlan

open Relation

namespace FlowGraph

/-! ## Sides -/

variable {g : FlowGraph}

theorem mem_elementIds {i : ElementId} : i ∈ g.elementIds ↔ ∃ x ∈ g.elements, x.id = i :=
  List.mem_map

/-- Behind a shuffle the reduce side has no boundaries. -/
theorem mem_reduceSide {i : ElementId} (hi : i ∈ g.reduceSide) :
    i ∈ g.idsWhere (·.isShuffleBoundary) ∨ g.isBoundary i = false := by
  obtain ⟨x, hx, -, hpath⟩ := Search.mem_reach.1 hi
  rcases hpath.cases_tail with rfl | ⟨y, -, hstep⟩
  · exact .inl hx
  · exact .inr (by simpa using (List.mem_filter.1 hstep.1).2)

theorem mem_reduceSide_of_shuffle {x : Element} (hx : x ∈ g.elements)
    (hs : x.isShuffleBoundary = true) : x.id ∈ g.reduceSide :=
  Search.mem_reach.2
    ⟨x.id, mem_idsWhere.2 ⟨x, hx, hs, rfl⟩, mem_elementIds.2 ⟨x, hx, rfl⟩, .refl⟩

namespace Coherent

/-- What is materialized is not shuffled as well. -/
theorem isShuffleBoundary_eq_false (h : g.Coherent) {x : Element} (hx : x ∈ g.elements)
    (hs : x.isStageBoundary = true) : x.isShuffleBoundary = false := by
  have hshape := h.shaped x hx
  unfold Element.Shaped HasShape at hshape
  unfold Element.isStageBoundary Element.isInput Element.isOutput Element.isCheckpoint at hs
  unfold Element.isShuffleBoundary
  cases hk : x.kind <;> rw [hk] at hshape hs <;>
    simp_all [ElementKind.isInput, ElementKind.isOutput, Element.isPseudo, ElementKind.isPseudo]

theorem side?_eq_none (h : g.Coherent) {x : Element} (hx : x ∈ g.elements) :
    g.side? g.reduceSide x.id = none ↔ x.isStageBoundary = true := by
  have hshuffle : x.id ∈ g.idsWhere (·.isShuffleBoundary) ↔ x.isShuffleBoundary = true := by
    rw [mem_idsWhere]
    constructor
    · intro hmem
      obtain ⟨y, hy, hys, hid⟩ := hmem
      rwa [← h.eq_of_id_eq hy hx hid]
    · exact fun hs => ⟨x, hx, hs, rfl⟩
  unfold side?
  rw [h.isBoundary_eq hx]
  constructor
  · intro hnone
    by_cases hr : x.id ∈ g.reduceSide
    · simp [hr] at hnone
    · have hns : x.isShuffleBoundary = false := by
        rw [← Bool.not_eq_true]
        exact fun hs => hr (mem_reduceSide_of_shuffle hx hs)
      simpa [hr, Element.isBoundary, hns] using hnone
  · intro hs
    have hb : x.isBoundary = true := by rw [Element.isBoundary, hs, Bool.true_or]
    have hr : x.id ∉ g.reduceSide := by
      intro hr
      rcases mem_reduceSide hr with hmem | hnot
      · rw [hshuffle, h.isShuffleBoundary_eq_false hx hs] at hmem
        cases hmem
      · rw [h.isBoundary_eq hx, hb] at hnot
        cases hnot
    rw [if_neg hr, if_pos hb]

end Coherent
end FlowGraph

namespace StageGraph

/-! ## Components -/

section Components

variable {neighbours : ElementId → List ElementId} {side : ElementId → Option BlockKind}
  {nodes : List ElementId} {kind : BlockKind} {ms : List ElementId}

theorem side_of_mem_breadthFirst {unseen : List ElementId} {e i : ElementId}
    (he : side e = some kind)
    (hi : i ∈ Search.breadthFirst (fun n => (neighbours n).filter fun m => side m = some kind)
      unseen [e]) : side i = some kind := by
  obtain ⟨x, hx, hpath⟩ := (Search.mem_breadthFirst _ _ _).1 hi
  obtain rfl := List.mem_singleton.1 hx
  rcases hpath.cases_tail with rfl | ⟨y, -, hstep⟩
  · exact he
  · simpa using (List.mem_filter.1 hstep.1).2

theorem mem_components (h : (kind, ms) ∈ components neighbours side nodes) :
    ms.Sublist nodes ∧ ms ≠ [] ∧ ∀ i ∈ ms, side i = some kind := by
  induction nodes using components.induct neighbours side with
  | case1 => simp [components] at h
  | case2 e rest hside ih =>
    rw [components, hside] at h
    exact ⟨(ih h).1.trans (List.sublist_cons_self e rest), (ih h).2⟩
  | case3 e rest kind' hside next members ih =>
    rw [components, hside] at h
    rcases List.mem_cons.1 h with heq | h
    · obtain ⟨rfl, rfl⟩ := Prod.mk.inj heq
      refine ⟨List.filter_sublist, ?_, fun i hi => ?_⟩
      · refine List.ne_nil_of_mem (a := e) (List.mem_filter.2 ⟨List.mem_cons_self, ?_⟩)
        exact decide_eq_true
          ((Search.mem_breadthFirst _ _ _).2 ⟨e, List.mem_singleton_self e, .refl⟩)
      · exact side_of_mem_breadthFirst hside (by simpa using (List.mem_filter.1 hi).2)
    · have hsub := (ih h).1.trans (List.filter_sublist (l := rest))
      exact ⟨hsub.trans (List.sublist_cons_self e rest), (ih h).2⟩

theorem exists_component {i : ElementId} (hi : i ∈ nodes) (hside : side i = some kind) :
    ∃ part ∈ components neighbours side nodes, i ∈ part.2 := by
  induction nodes using components.induct neighbours side with
  | case1 => cases hi
  | case2 e rest hnone ih =>
    rw [components, hnone]
    rcases List.mem_cons.1 hi with rfl | hi
    · rw [hnone] at hside
      cases hside
    · exact ih hi
  | case3 e rest kind' hsome next members ih =>
    rw [components, hsome]
    by_cases hmem : i ∈ members
    · exact ⟨_, List.mem_cons_self, List.mem_filter.2 ⟨hi, decide_eq_true hmem⟩⟩
    · rcases List.mem_cons.1 hi with rfl | hi
      · exact absurd ((Search.mem_breadthFirst _ _ _).2 ⟨i, List.mem_singleton_self i, .refl⟩) hmem
      · obtain ⟨part, hpart, hip⟩ := ih (List.mem_filter.2 ⟨hi, decide_eq_true hmem⟩)
        exact ⟨part, List.mem_cons_of_mem _ hpart, hip⟩

theorem components_disjoint :
    (components neighbours side nodes).Pairwise fun p q => ∀ i ∈ p.2, i ∉ q.2 := by
  induction nodes using components.induct neighbours side with
  | case1 => simp [components]
  | case2 e rest hnone ih => rwa [components, hnone]
  | case3 e rest kind' hsome next members ih =>
    rw [components, hsome]
    refine List.pairwise_cons.2 ⟨fun part hpart i hi hip => ?_, ih⟩
    have hout := (mem_components hpart).1.subset hip
    exact of_decide_eq_true (List.mem_filter.1 hout).2
      (of_decide_eq_true (List.mem_filter.1 hi).2)

end Components

/-! ## The blocks of a graph -/

variable {g : FlowGraph} {b b' : Block}

/-- The sides cut into what hangs together. -/
def parts (g : FlowGraph) : List (BlockKind × List ElementId) :=
  components g.neighbours (g.side? g.reduceSide) g.elementIds

def innerBlocks (g : FlowGraph) : List Block :=
  ((parts g).zipIdx 1).map fun ((kind, members), id) => makeBlock g id kind members

theorem blocksOf_eq (g : FlowGraph) :
    blocksOf g = inputBlock g :: innerBlocks g ++ [outputBlock g ((parts g).length + 1)] := rfl

theorem mem_innerBlocks (hb : b ∈ innerBlocks g) :
    ∃ id, ∃ part ∈ parts g, b = makeBlock g id part.1 part.2 := by
  obtain ⟨⟨part, id⟩, hpart, rfl⟩ := List.mem_map.1 hb
  exact ⟨id, part, List.fst_mem_of_mem_zipIdx hpart, rfl⟩

theorem mem_blocksOf : b ∈ blocksOf g ↔
    b = inputBlock g ∨ b ∈ innerBlocks g ∨ b = outputBlock g ((parts g).length + 1) := by
  rw [blocksOf_eq, List.mem_append, List.mem_cons, List.mem_singleton, or_assoc]

theorem length_innerBlocks (g : FlowGraph) : (innerBlocks g).length = (parts g).length := by
  rw [innerBlocks, List.length_map, List.length_zipIdx]

/-- The numbers of map and reduce blocks begin behind that of the block of the inputs. -/
theorem ids_innerBlocks (g : FlowGraph) :
    (innerBlocks g).map (·.id) = List.range' 1 (innerBlocks g).length := by
  rw [length_innerBlocks, innerBlocks, List.map_map]
  exact List.zipIdx_map_snd 1 (parts g)

/-- A block is found at the position of its number. -/
theorem ids_blocksOf (g : FlowGraph) :
    (blocksOf g).map (·.id) = List.range (blocksOf g).length := by
  rw [blocksOf_eq, List.map_append, List.map_cons, ids_innerBlocks, List.length_append,
    List.length_cons, ← length_innerBlocks, List.range_eq_range', List.length_singleton,
    List.range'_concat, List.range'_succ, Nat.zero_add, Nat.zero_add, Nat.one_mul]
  rfl

theorem id_of_getElem?_blocksOf {i : BlockId} (hb : (blocksOf g)[i]? = some b) : b.id = i := by
  obtain ⟨hi, rfl⟩ := List.getElem?_eq_some_iff.1 hb
  have hlt : i < ((blocksOf g).map (·.id)).length := by rwa [List.length_map]
  have hget : ((blocksOf g).map (·.id))[i] = i := by
    simp only [ids_blocksOf, List.getElem_range]
  rwa [List.getElem_map] at hget

theorem getElem?_blocksOf (hb : b ∈ blocksOf g) : (blocksOf g)[b.id]? = some b := by
  obtain ⟨i, hi, rfl⟩ := List.getElem_of_mem hb
  have hget : (blocksOf g)[i]? = some (blocksOf g)[i] := List.getElem?_eq_getElem hi
  rwa [id_of_getElem?_blocksOf hget]

theorem id_lt_of_mem_blocksOf (hb : b ∈ blocksOf g) : b.id < (blocksOf g).length :=
  (List.getElem?_eq_some_iff.1 (getElem?_blocksOf hb)).1

theorem eq_of_id_eq_of_mem_blocksOf (hb : b ∈ blocksOf g) (hb' : b' ∈ blocksOf g)
    (hid : b.id = b'.id) : b = b' := by
  have heq := getElem?_blocksOf hb
  rw [hid, getElem?_blocksOf hb'] at heq
  exact (Option.some.inj heq).symm

theorem isStaged_of_isMap (h : b.isMap = true) : b.isStaged = true := by
  rw [Block.isStaged, h, Bool.true_or]

theorem isStaged_of_isReduce (h : b.isReduce = true) : b.isStaged = true := by
  rw [Block.isStaged, h, Bool.or_true]

/-! ## Elements of blocks -/

theorem kind_of_mem_innerBlocks (hb : b ∈ innerBlocks g) : b.kind = .map ∨ b.kind = .reduce := by
  obtain ⟨id, part, hpart, rfl⟩ := mem_innerBlocks hb
  obtain ⟨-, hne, hside⟩ := mem_components hpart
  obtain ⟨i, hi⟩ := List.exists_mem_of_ne_nil _ hne
  have hkind := hside i hi
  unfold FlowGraph.side? at hkind
  show part.1 = _ ∨ part.1 = _
  split at hkind
  · exact .inr (Option.some.inj hkind).symm
  · split at hkind
    · cases hkind
    · exact .inl (Option.some.inj hkind).symm

theorem exists_of_mem_inputBlock {i : ElementId} (hi : i ∈ (inputBlock g).elements) :
    ∃ x ∈ g.elements, x.id = i ∧ x.isInput = true := by
  obtain ⟨x, hx, hin, hid⟩ := FlowGraph.mem_idsWhere.1 hi
  exact ⟨x, hx, hid, hin⟩

theorem exists_of_mem_outputBlock {id : BlockId} {i : ElementId}
    (hi : i ∈ (outputBlock g id).elements) : ∃ x ∈ g.elements, x.id = i ∧ x.isOutput = true := by
  obtain ⟨x, hx, hout, hid⟩ := FlowGraph.mem_idsWhere.1 hi
  exact ⟨x, hx, hid, hout⟩

/-- Nothing that is materialized is in a map or reduce block. -/
theorem exists_of_mem_innerBlock (h : g.Coherent) (hb : b ∈ innerBlocks g) {i : ElementId}
    (hi : i ∈ b.elements) : ∃ x ∈ g.elements, x.id = i ∧ x.isStageBoundary = false := by
  obtain ⟨id, part, hpart, rfl⟩ := mem_innerBlocks hb
  obtain ⟨hsub, -, hside⟩ := mem_components hpart
  obtain ⟨x, hx, rfl⟩ := FlowGraph.mem_elementIds.1 (hsub.subset hi)
  refine ⟨x, hx, rfl, ?_⟩
  rw [← Bool.not_eq_true, ← h.side?_eq_none hx, hside x.id hi]
  exact Option.some_ne_none _

theorem isOutput_eq_false {x : Element} (hx : x.isInput = true) : x.isOutput = false := by
  unfold Element.isInput at hx
  unfold Element.isOutput
  cases hk : x.kind <;> simp_all [ElementKind.isInput, ElementKind.isOutput]

theorem isCheckpoint_eq_false_of_isInput {x : Element} (hx : x.isInput = true) :
    x.isCheckpoint = false := by
  unfold Element.isInput at hx
  unfold Element.isCheckpoint Element.isPseudo
  cases hk : x.kind <;> simp_all [ElementKind.isInput, ElementKind.isPseudo]

theorem isCheckpoint_eq_false_of_isOutput {x : Element} (hx : x.isOutput = true) :
    x.isCheckpoint = false := by
  unfold Element.isOutput at hx
  unfold Element.isCheckpoint Element.isPseudo
  cases hk : x.kind <;> simp_all [ElementKind.isOutput, ElementKind.isPseudo]

theorem blocksOf_disjoint (h : g.Coherent) :
    (blocksOf g).Pairwise fun b b' => ∀ i ∈ b.elements, i ∉ b'.elements := by
  have hinner : (innerBlocks g).Pairwise fun b b' => ∀ i ∈ b.elements, i ∉ b'.elements := by
    refine List.pairwise_map.2 ?_
    have hparts : (((parts g).zipIdx 1).map (·.1)).Pairwise fun p q => ∀ i ∈ p.2, i ∉ q.2 := by
      rw [List.zipIdx_map_fst]
      exact components_disjoint
    exact List.pairwise_map.1 hparts
  rw [blocksOf_eq, List.cons_append, List.pairwise_cons, List.pairwise_append]
  refine ⟨fun b hb i hi hib => ?_, hinner, List.pairwise_singleton _ _,
    fun b hb b' hb' i hi hib => ?_⟩
  · obtain ⟨x, hx, rfl, hin⟩ := exists_of_mem_inputBlock hi
    rcases List.mem_append.1 hb with hb | hb
    · obtain ⟨y, hy, hid, hnot⟩ := exists_of_mem_innerBlock h hb hib
      rw [h.eq_of_id_eq hy hx hid, Element.isStageBoundary, hin] at hnot
      cases hnot
    · rw [List.mem_singleton.1 hb] at hib
      obtain ⟨y, hy, hid, hout⟩ := exists_of_mem_outputBlock hib
      rw [h.eq_of_id_eq hy hx hid, isOutput_eq_false hin] at hout
      cases hout
  · rw [List.mem_singleton.1 hb'] at hib
    obtain ⟨x, hx, rfl, hout⟩ := exists_of_mem_outputBlock hib
    obtain ⟨y, hy, hid, hnot⟩ := exists_of_mem_innerBlock h hb hi
    rw [h.eq_of_id_eq hy hx hid, Element.isStageBoundary, hout, Bool.or_true, Bool.true_or] at hnot
    cases hnot

/-- No two blocks share an element. -/
theorem eq_of_mem_elements (h : g.Coherent) (hb : b ∈ blocksOf g) (hb' : b' ∈ blocksOf g)
    {i : ElementId} (hi : i ∈ b.elements) (hi' : i ∈ b'.elements) : b = b' := by
  by_contra hne
  have hsymm : Std.Symm fun b b' : Block => ∀ i ∈ b.elements, i ∉ b'.elements :=
    ⟨fun _ _ hbb i hi hi' => hbb i hi' hi⟩
  exact (blocksOf_disjoint h).forall hb hb' hne i hi hi'

theorem exists_innerBlock {i : ElementId} {kind : BlockKind} (hi : i ∈ g.elementIds)
    (hside : g.side? g.reduceSide i = some kind) : ∃ b ∈ innerBlocks g, i ∈ b.elements := by
  obtain ⟨part, hpart, hmem⟩ : ∃ part ∈ parts g, i ∈ part.2 := exists_component hi hside
  have hfst : part ∈ ((parts g).zipIdx 1).map (·.1) := by rwa [List.zipIdx_map_fst]
  obtain ⟨⟨part, id⟩, hid, rfl⟩ := List.mem_map.1 hfst
  exact ⟨_, List.mem_map.2 ⟨(part, id), hid, rfl⟩, hmem⟩

/-- Only checkpoints are in no block. -/
theorem exists_block (h : g.Coherent) {x : Element} (hx : x ∈ g.elements)
    (hc : x.isCheckpoint = false) : ∃ b ∈ blocksOf g, x.id ∈ b.elements := by
  by_cases hin : x.isInput = true
  · exact ⟨inputBlock g, mem_blocksOf.2 (.inl rfl), FlowGraph.mem_idsWhere.2 ⟨x, hx, hin, rfl⟩⟩
  · by_cases hout : x.isOutput = true
    · exact ⟨_, mem_blocksOf.2 (.inr (.inr rfl)), FlowGraph.mem_idsWhere.2 ⟨x, hx, hout, rfl⟩⟩
    · have hs : ¬ x.isStageBoundary = true := by
        simp [Element.isStageBoundary, hin, hout, hc]
      rw [← h.side?_eq_none hx] at hs
      obtain ⟨kind, hside⟩ := Option.ne_none_iff_exists'.1 hs
      obtain ⟨b, hb, hmem⟩ := exists_innerBlock (FlowGraph.mem_elementIds.2 ⟨x, hx, rfl⟩) hside
      exact ⟨b, mem_blocksOf.2 (.inr (.inl hb)), hmem⟩

/-! ## Ports of blocks -/

theorem holds_iff {i : ElementId} : b.holds i = true ↔ i ∈ b.elements := List.contains_iff_mem

theorem mem_ports_of_members (h : g.Coherent) (f : Element → List Port) {ms : List ElementId}
    {p : PortId} :
    p ∈ ms.flatMap (fun e => portIds (((g.element? e).map f).getD [])) ↔
      ∃ x ∈ g.elements, x.id ∈ ms ∧ p ∈ (f x).map (·.id) := by
  rw [List.mem_flatMap]
  constructor
  · intro hmem
    obtain ⟨i, hi, hp⟩ := hmem
    cases he : g.element? i with
    | none => simp [he, portIds] at hp
    | some x =>
      obtain ⟨hx, rfl⟩ := FlowGraph.mem_of_element?_eq_some he
      rw [he] at hp
      exact ⟨x, hx, hi, hp⟩
  · intro hmem
    obtain ⟨x, hx, hi, hp⟩ := hmem
    refine ⟨x.id, hi, ?_⟩
    rw [h.element?_eq_some hx]
    exact hp

theorem mem_outputsOf_members (h : g.Coherent) {ms : List ElementId} {p : PortId} :
    p ∈ ms.flatMap (fun e => portIds (g.outputsOf e)) ↔
      ∃ x ∈ g.elements, x.id ∈ ms ∧ p ∈ x.outputIds := mem_ports_of_members h (·.outputs)

theorem mem_inputsOf_members (h : g.Coherent) {ms : List ElementId} {p : PortId} :
    p ∈ ms.flatMap (fun e => portIds (g.inputsOf e)) ↔
      ∃ x ∈ g.elements, x.id ∈ ms ∧ p ∈ x.inputIds := mem_ports_of_members h (·.inputs)

/-- Different elements have different output ports. -/
theorem outputsOf_members_nodup (h : g.Coherent) {ms : List ElementId} (hn : ms.Nodup) :
    (ms.flatMap fun e => portIds (g.outputsOf e)).Nodup := by
  have hports : ∀ {i p}, p ∈ portIds (g.outputsOf i) →
      ∃ x ∈ g.elements, x.id = i ∧ p ∈ x.outputIds := by
    intro i p hp
    have hmem : p ∈ [i].flatMap fun e => portIds (g.outputsOf e) :=
      List.mem_flatMap.2 ⟨i, List.mem_singleton_self i, hp⟩
    obtain ⟨x, hx, hi, hpx⟩ := (mem_outputsOf_members h).1 hmem
    exact ⟨x, hx, List.mem_singleton.1 hi, hpx⟩
  refine List.nodup_flatMap.2 ⟨fun i _ => ?_, hn.imp fun hne p hp hp' => hne ?_⟩
  · cases he : g.element? i with
    | none => simp [FlowGraph.outputsOf, he, portIds]
    | some x =>
      obtain ⟨hx, rfl⟩ := FlowGraph.mem_of_element?_eq_some he
      have hown := h.portIds_nodup hx
      rw [Element.portIds_eq] at hown
      rw [h.outputsOf_eq hx]
      exact (List.nodup_append.1 hown).2.1
  · obtain ⟨x, hx, rfl, hpx⟩ := hports hp
    obtain ⟨y, hy, rfl, hpy⟩ := hports hp'
    rw [h.eq_of_output hx hy hpx hpy]

theorem exists_of_mem_outputs (h : g.Coherent) (hb : b ∈ blocksOf g) {p : PortId}
    (hp : p ∈ b.outputs) : ∃ x ∈ g.elements, x.id ∈ b.elements ∧ p ∈ x.outputIds := by
  rcases mem_blocksOf.1 hb with rfl | hb | rfl
  · exact (mem_outputsOf_members h).1 hp
  · obtain ⟨id, part, -, rfl⟩ := mem_innerBlocks hb
    exact (mem_outputsOf_members h).1 (List.mem_filter.1 hp).1
  · cases hp

theorem exists_of_mem_inputs (h : g.Coherent) (hb : b ∈ blocksOf g) {p : PortId}
    (hp : p ∈ b.inputs) : ∃ x ∈ g.elements, x.id ∈ b.elements ∧ p ∈ x.inputIds := by
  rcases mem_blocksOf.1 hb with rfl | hb | rfl
  · cases hp
  · obtain ⟨id, part, -, rfl⟩ := mem_innerBlocks hb
    exact (mem_inputsOf_members h).1 (List.mem_filter.1 hp).1
  · exact (mem_inputsOf_members h).1 hp

theorem exists_of_mem_ports (h : g.Coherent) (hb : b ∈ blocksOf g) {p : PortId}
    (hp : p ∈ b.ports) : ∃ x ∈ g.elements, x.id ∈ b.elements ∧ p ∈ x.portIds := by
  rcases List.mem_append.1 hp with hp | hp
  · obtain ⟨x, hx, hxb, hpx⟩ := exists_of_mem_inputs h hb hp
    exact ⟨x, hx, hxb, Element.mem_portIds.2 (.inl hpx)⟩
  · obtain ⟨x, hx, hxb, hpx⟩ := exists_of_mem_outputs h hb hp
    exact ⟨x, hx, hxb, Element.mem_portIds.2 (.inr hpx)⟩

theorem eq_of_mem_ports (h : g.Coherent) (hb : b ∈ blocksOf g) (hb' : b' ∈ blocksOf g)
    {p : PortId} (hp : p ∈ b.ports) (hp' : p ∈ b'.ports) : b = b' := by
  obtain ⟨x, hx, hxb, hpx⟩ := exists_of_mem_ports h hb hp
  obtain ⟨y, hy, hyb, hpy⟩ := exists_of_mem_ports h hb' hp'
  obtain rfl := h.eq_of_port hx hy hpx hpy
  exact eq_of_mem_elements h hb hb' hxb hyb

/-- The block of a port is found by the port. -/
theorem find?_port (h : g.Coherent) (hb : b ∈ blocksOf g) {p : PortId} (hp : p ∈ b.ports) :
    (blocksOf g).find? (·.ports.contains p) = some b := by
  obtain ⟨b', hfind⟩ := Option.isSome_iff_exists.1
    (List.find?_isSome.2 ⟨b, hb, List.contains_iff_mem.2 hp⟩ :
      ((blocksOf g).find? (·.ports.contains p)).isSome = true)
  have hp' : p ∈ b'.ports := List.contains_iff_mem.1 (by simpa using List.find?_some hfind)
  rw [hfind, eq_of_mem_ports h (List.mem_of_find?_eq_some hfind) hb hp' hp]

theorem crosses_source (h : g.Coherent) {c : Connection} {z : Element} {ms : List ElementId}
    (hc : c ∈ g.connections) (hz : z ∈ g.elements) (ht : c.target ∈ z.inputIds)
    (hout : z.id ∉ ms) : crosses g ms c.source = true := by
  have hmem := (h.mem_oppositeOwners (h.joined c hc).1).2 ⟨z, hz, rfl, c.target, ht, hc⟩
  exact List.any_eq_true.2 ⟨z.id, hmem, decide_eq_true hout⟩

theorem crosses_target (h : g.Coherent) {c : Connection} {z : Element} {ms : List ElementId}
    (hc : c ∈ g.connections) (hz : z ∈ g.elements) (hs : c.source ∈ z.outputIds)
    (hout : z.id ∉ ms) : crosses g ms c.target = true := by
  refine List.any_eq_true.2 ⟨z.id, List.mem_filterMap.2 ⟨c.source, ?_, ?_⟩, decide_eq_true hout⟩
  · exact (h.mem_opposites_of_isInputPort (h.joined c hc).2).2 hc
  · exact h.ownerId?_of_output hz hs

theorem outputIds_of_isOutput (h : g.Coherent) {x : Element} (hx : x ∈ g.elements)
    (hout : x.isOutput = true) : x.outputIds = [] := by
  have hshape := h.shaped x hx
  unfold Element.isOutput at hout
  unfold Element.Shaped HasShape at hshape
  cases hk : x.kind <;> rw [hk] at hshape hout <;> simp [ElementKind.isOutput] at hout
  simpa [FlowGraph.decls, Element.outputIds] using hshape.2.2

theorem inputIds_of_isInput (h : g.Coherent) {x : Element} (hx : x ∈ g.elements)
    (hin : x.isInput = true) : x.inputIds = [] := by
  have hshape := h.shaped x hx
  unfold Element.isInput at hin
  unfold Element.Shaped HasShape at hshape
  cases hk : x.kind <;> rw [hk] at hshape hin <;> simp [ElementKind.isInput] at hin
  simpa [FlowGraph.decls, Element.inputIds] using hshape.2.1

/-- A connection that leaves the block of its source begins at an output of the block. -/
theorem mem_outputs (h : g.Coherent) (hb : b ∈ blocksOf g) {c : Connection} {x z : Element}
    (hc : c ∈ g.connections) (hx : x ∈ g.elements) (hs : c.source ∈ x.outputIds)
    (hxb : x.id ∈ b.elements) (hz : z ∈ g.elements) (ht : c.target ∈ z.inputIds)
    (hzb : z.id ∉ b.elements) : c.source ∈ b.outputs := by
  rcases mem_blocksOf.1 hb with rfl | hb | rfl
  · exact (mem_outputsOf_members h).2 ⟨x, hx, hxb, hs⟩
  · obtain ⟨id, part, -, rfl⟩ := mem_innerBlocks hb
    exact List.mem_filter.2 ⟨(mem_outputsOf_members h).2 ⟨x, hx, hxb, hs⟩,
      crosses_source h hc hz ht hzb⟩
  · obtain ⟨y, hy, hid, hout⟩ := exists_of_mem_outputBlock hxb
    rw [← h.eq_of_id_eq hy hx hid, outputIds_of_isOutput h hy hout] at hs
    cases hs

/-- A connection that enters the block of its target ends at an input of the block. -/
theorem mem_inputs (h : g.Coherent) (hb : b ∈ blocksOf g) {c : Connection} {y z : Element}
    (hc : c ∈ g.connections) (hy : y ∈ g.elements) (ht : c.target ∈ y.inputIds)
    (hyb : y.id ∈ b.elements) (hz : z ∈ g.elements) (hs : c.source ∈ z.outputIds)
    (hzb : z.id ∉ b.elements) : c.target ∈ b.inputs := by
  rcases mem_blocksOf.1 hb with rfl | hb | rfl
  · obtain ⟨x, hx, hid, hin⟩ := exists_of_mem_inputBlock hyb
    rw [← h.eq_of_id_eq hx hy hid, inputIds_of_isInput h hx hin] at ht
    cases ht
  · obtain ⟨id, part, -, rfl⟩ := mem_innerBlocks hb
    exact List.mem_filter.2 ⟨(mem_inputsOf_members h).2 ⟨y, hy, hyb, ht⟩,
      crosses_target h hc hz hs hzb⟩
  · exact (mem_inputsOf_members h).2 ⟨y, hy, hyb, ht⟩

/-- A checkpoint is in no block. -/
theorem isCheckpoint_of_mem_elements (h : g.Coherent) (hb : b ∈ blocksOf g) {x : Element}
    (hx : x ∈ g.elements) (hxb : x.id ∈ b.elements) : x.isCheckpoint = false := by
  rcases mem_blocksOf.1 hb with rfl | hb | rfl
  · obtain ⟨y, hy, hid, hin⟩ := exists_of_mem_inputBlock hxb
    rw [← h.eq_of_id_eq hy hx hid]
    exact isCheckpoint_eq_false_of_isInput hin
  · obtain ⟨y, hy, hid, hnot⟩ := exists_of_mem_innerBlock h hb hxb
    rw [h.eq_of_id_eq hy hx hid, Element.isStageBoundary, Bool.or_eq_false_iff] at hnot
    exact hnot.2
  · obtain ⟨y, hy, hid, hout⟩ := exists_of_mem_outputBlock hxb
    rw [← h.eq_of_id_eq hy hx hid]
    exact isCheckpoint_eq_false_of_isOutput hout

end StageGraph
end FlowPlan
