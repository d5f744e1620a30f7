import FlowPlan.Proofs.Regions
import FlowPlan.Proofs.StagePlans

/-!
Map and reduce blocks are the connected components of the two sides.

Every element but a checkpoint occurs once in the blocks.  Two elements are in one map or reduce
block exactly if they are on the same side and a chain of connections that stays on the side joins
them, whichever way the connections run.  Blocks are ascending lists, which is what their lookup by
bisection rests on, and they are numbered by their smallest elements.

The search for components is sound because it only steps to neighbours on the side, and complete
because a component takes all of them up, as `mem_component_of_neighbour` says.
-/

namespace FlowPlan

/-- The smallest element of a block. -/
def Block.leastElement (b : Block) : ElementId := b.elements.min?.getD 0

namespace FlowGraph

variable {g : FlowGraph} {kind : BlockKind} {x y : Element}

/-- Shuffles and what is behind them are on the reduce side, everything else that is no boundary on
the map side. -/
def IsOnSide (g : FlowGraph) : BlockKind → Element → Prop
  | .map, x => x.isBoundary = false ∧ ¬ g.IsBehind x
  | .reduce, x => x.isShuffleBoundary = true ∨ g.IsBehind x
  | _, _ => False

/-- Two elements of one side with a connection between them, whichever way it runs. -/
structure Borders (g : FlowGraph) (kind : BlockKind) (x y : Element) : Prop where
  left_mem : x ∈ g.elements
  right_mem : y ∈ g.elements
  left : g.IsOnSide kind x
  right : g.IsOnSide kind y
  connected : g.Feeds x y ∨ g.Feeds y x

theorem Borders.symm (hb : g.Borders kind x y) : g.Borders kind y x :=
  ⟨hb.right_mem, hb.left_mem, hb.right, hb.left, hb.connected.symm⟩

/-- The side that the plan is cut by is the side of the paths. -/
theorem side?_eq_some_iff (h : g.Coherent) (hx : x ∈ g.elements) :
    g.side? g.reduceSide x.id = some kind ↔ g.IsOnSide kind x := by
  have hreduce := mem_reduceSide_iff h hx
  rw [side?, h.isBoundary_eq hx]
  cases kind with
  | map =>
    have hmap : x.id ∉ g.reduceSide ∧ x.isBoundary = false ↔ g.IsOnSide .map x := by
      rw [hreduce, not_or, Bool.not_eq_true]
      constructor
      · exact fun hoff => ⟨hoff.2, hoff.1.2⟩
      · intro hon
        exact ⟨⟨isShuffleBoundary_eq_false_of_isBoundary_eq_false hon.1, hon.2⟩, hon.1⟩
    rw [← hmap]
    split_ifs <;> simp_all
  | reduce =>
    rw [IsOnSide, ← hreduce]
    split_ifs <;> simp_all
  | input => split_ifs <;> simp [IsOnSide]
  | output => split_ifs <;> simp [IsOnSide]

end FlowGraph

namespace StageGraph

open FlowGraph Relation

/-! ## Components -/

section Components

variable {neighbours : ElementId → List ElementId} {side : ElementId → Option BlockKind}
  {nodes : List ElementId} {kind : BlockKind} {ms : List ElementId}

/-- A step from one node to a neighbour on a side. -/
def StepsTo (neighbours : ElementId → List ElementId) (side : ElementId → Option BlockKind)
    (kind : BlockKind) (i j : ElementId) : Prop := j ∈ neighbours i ∧ side j = some kind

/-- A component begins with the node that it was searched from, and all of it is reached from
there. -/
theorem components_begin (h : (kind, ms) ∈ components neighbours side nodes) :
    ∃ e rest, ms = e :: rest ∧ ∀ i ∈ ms, ReflTransGen (StepsTo neighbours side kind) e i := by
  induction nodes using components.induct neighbours side with
  | case1 => simp [components] at h
  | case2 e rest hnone ih =>
    rw [components, hnone] at h
    exact ih h
  | case3 e rest kind' hsome next members ih =>
    rw [components, hsome] at h
    rcases List.mem_cons.1 h with heq | h
    · obtain ⟨rfl, rfl⟩ := Prod.mk.inj heq
      have hin : ∀ i ∈ members, ReflTransGen (Search.Step next rest) e i := by
        intro i hi
        obtain ⟨x, hx, hpath⟩ := (Search.mem_breadthFirst next rest [e]).1 hi
        exact List.mem_singleton.1 hx ▸ hpath
      have hfirst : e ∈ members :=
        (Search.mem_breadthFirst next rest [e]).2 ⟨e, List.mem_singleton_self e, .refl⟩
      refine ⟨e, rest.filter (· ∈ members), List.filter_cons_of_pos (decide_eq_true hfirst),
        fun i hi => ?_⟩
      refine ReflTransGen.mono (fun a b hstep => ?_) e i
        (hin i (of_decide_eq_true (List.mem_filter.1 hi).2))
      obtain ⟨hmem, hside⟩ := List.mem_filter.1 hstep.1
      exact ⟨hmem, of_decide_eq_true hside⟩
    · exact ih h

/-- Components come in the order of their smallest nodes. -/
theorem components_ascend (hasc : nodes.Pairwise (· < ·)) :
    (components neighbours side nodes).Pairwise fun p q => ∃ e ∈ p.2, ∀ i ∈ q.2, e < i := by
  induction nodes using components.induct neighbours side with
  | case1 => simp [components]
  | case2 e rest hnone ih =>
    rw [components, hnone]
    exact ih (List.pairwise_cons.1 hasc).2
  | case3 e rest kind' hsome next members ih =>
    obtain ⟨hlt, hasc⟩ := List.pairwise_cons.1 hasc
    rw [components, hsome]
    refine List.pairwise_cons.2 ⟨fun part hpart => ⟨e, ?_, fun i hi => hlt i ?_⟩,
      ih (hasc.filter _)⟩
    · refine List.mem_filter.2 ⟨List.mem_cons_self, decide_eq_true ?_⟩
      exact (Search.mem_breadthFirst next rest [e]).2 ⟨e, List.mem_singleton_self e, .refl⟩
    · exact List.mem_of_mem_filter ((mem_components hpart).1.subset hi)

end Components

/-! ## Blocks of one side -/

variable {g : FlowGraph} {b b' : Block} {kind : BlockKind} {x y : Element} {i : ElementId}

/-- What the search steps to is on the side, and joined to where the search began. -/
theorem exists_joined_of_stepsTo (h : g.Coherent) (hx : x ∈ g.elements)
    (hon : g.IsOnSide kind x)
    (hpath : ReflTransGen (StepsTo g.neighbours (g.side? g.reduceSide) kind) x.id i) :
    ∃ y ∈ g.elements, y.id = i ∧ g.IsOnSide kind y ∧ ReflTransGen (g.Borders kind) x y := by
  induction hpath with
  | refl => exact ⟨x, hx, rfl, hon, .refl⟩
  | @tail _ j _ hstep ih =>
    obtain ⟨y, hy, rfl, hony, hjoined⟩ := ih
    obtain ⟨hn, hside⟩ := hstep
    have hmem : ∃ z ∈ g.elements, z.id = j := by
      rcases List.mem_append.1 hn with hn | hn
      · obtain ⟨z, hz, hid, -⟩ := (h.mem_successors hy).1 hn
        exact ⟨z, hz, hid⟩
      · obtain ⟨z, hz, hid, -⟩ := (h.mem_predecessors hy).1 hn
        exact ⟨z, hz, hid⟩
    obtain ⟨z, hz, rfl⟩ := hmem
    have honz := (side?_eq_some_iff h hz).1 hside
    exact ⟨z, hz, rfl, honz,
      hjoined.tail ⟨hy, hz, hony, honz, (mem_neighbours h hy hz).1 hn⟩⟩

theorem joined_of_mem_elements (h : g.Coherent) (hb : b ∈ innerBlocks g) (hx : x ∈ g.elements)
    (hy : y ∈ g.elements) (hxb : x.id ∈ b.elements) (hyb : y.id ∈ b.elements) :
    ReflTransGen (g.Borders b.kind) x y := by
  obtain ⟨id, part, hpart, rfl⟩ := mem_innerBlocks hb
  obtain ⟨hsub, -, hside⟩ := mem_components hpart
  obtain ⟨e, rest, heq, hreach⟩ := components_begin hpart
  have he : e ∈ part.2 := heq ▸ List.mem_cons_self
  obtain ⟨z, hz, rfl⟩ := mem_elementIds.1 (hsub.subset he)
  have hon := (side?_eq_some_iff h hz).1 (hside z.id he)
  have hfrom : ∀ w ∈ g.elements, w.id ∈ part.2 → ReflTransGen (g.Borders part.1) z w := by
    intro w hw hwb
    obtain ⟨w', hw', hid, -, hjoined⟩ := exists_joined_of_stepsTo h hz hon (hreach w.id hwb)
    exact h.eq_of_id_eq hw' hw hid ▸ hjoined
  have hsymm : Std.Symm (g.Borders part.1) := ⟨fun _ _ => Borders.symm⟩
  have hback : ReflTransGen (g.Borders part.1) x z :=
    ReflTransGen.stdSymm.symm z x (hfrom x hx hxb)
  exact hback.trans (hfrom y hy hyb)

/-- A block takes up whatever is joined to one of its elements. -/
theorem mem_elements_of_joined (h : g.Coherent) (hb : b ∈ innerBlocks g) (hxb : x.id ∈ b.elements)
    (hjoined : ReflTransGen (g.Borders b.kind) x y) : y.id ∈ b.elements := by
  obtain ⟨id, part, hpart, rfl⟩ := mem_innerBlocks hb
  have hsymm : ∀ i ∈ g.elementIds, ∀ j ∈ g.elementIds, j ∈ g.neighbours i → i ∈ g.neighbours j := by
    intro i hi j hj hn
    obtain ⟨z, hz, rfl⟩ := mem_elementIds.1 hi
    obtain ⟨w, hw, rfl⟩ := mem_elementIds.1 hj
    exact (mem_neighbours h hw hz).2 ((mem_neighbours h hz hw).1 hn).symm
  induction hjoined with
  | refl => exact hxb
  | @tail z y _ hstep ih =>
    exact mem_component_of_neighbour hsymm hpart ih
      (mem_elementIds.2 ⟨y, hstep.right_mem, rfl⟩)
      ((mem_neighbours h hstep.left_mem hstep.right_mem).2 hstep.connected)
      ((side?_eq_some_iff h hstep.right_mem).2 hstep.right)

theorem exists_shared_block_iff (h : g.Coherent) (hkind : kind = .map ∨ kind = .reduce)
    (hx : x ∈ g.elements) (hy : y ∈ g.elements) :
    (∃ b ∈ (plan g).1.blocks, b.kind = kind ∧ x.id ∈ b.elements ∧ y.id ∈ b.elements) ↔
      g.IsOnSide kind x ∧ g.IsOnSide kind y ∧ ReflTransGen (g.Borders kind) x y := by
  constructor
  · intro hshared
    obtain ⟨b, hb, rfl, hxb, hyb⟩ := hshared
    have hinner : b ∈ innerBlocks g := by
      refine mem_innerBlocks_of_isStaged hb ?_
      rw [Block.isStaged, Block.isMap, Block.isReduce]
      rcases hkind with hk | hk <;> rw [hk] <;> rfl
    exact ⟨(side?_eq_some_iff h hx).1 (side_of_mem_innerBlocks hinner hxb),
      (side?_eq_some_iff h hy).1 (side_of_mem_innerBlocks hinner hyb),
      joined_of_mem_elements h hinner hx hy hxb hyb⟩
  · intro hjoined
    obtain ⟨honx, -, hjoined⟩ := hjoined
    have hside := (side?_eq_some_iff h hx).2 honx
    obtain ⟨b, hb, hxb⟩ := exists_innerBlock (mem_elementIds.2 ⟨x, hx, rfl⟩) hside
    obtain rfl := Option.some.inj ((side_of_mem_innerBlocks hb hxb).symm.trans hside)
    exact ⟨b, mem_blocksOf.2 (.inr (.inl hb)), rfl, hxb, mem_elements_of_joined h hb hxb hjoined⟩

/-! ## The cut of a graph -/

theorem filter_isStaged_blocksOf (g : FlowGraph) :
    (blocksOf g).filter (·.isStaged) = innerBlocks g := by
  have hinner : (innerBlocks g).filter (·.isStaged) = innerBlocks g :=
    List.filter_eq_self.2 fun b hb => (List.mem_filter.1 (mem_staged.2 hb)).2
  rw [blocksOf_eq, List.filter_append, List.filter_cons_of_neg (by simp [inputBlock, Block.isStaged,
    Block.isMap, Block.isReduce]), hinner]
  exact List.append_nil _

theorem leastElement_spec (hi : i ∈ b.elements) :
    b.leastElement ∈ b.elements ∧ b.leastElement ≤ i := by
  obtain ⟨j, hj⟩ := Option.isSome_iff_exists.1 (List.isSome_min?_of_mem hi)
  obtain ⟨hmem, hle⟩ := List.min?_eq_some_iff.1 hj
  rw [Block.leastElement, hj]
  exact ⟨hmem, hle i hi⟩

theorem leastElements_ascend (h : g.Coherent) :
    ((innerBlocks g).map (·.leastElement)).Pairwise (· < ·) := by
  have hparts : (((parts g).zipIdx 1).map (·.1)).Pairwise
      fun p q => ∃ e ∈ p.2, ∀ i ∈ q.2, e < i := by
    rw [List.zipIdx_map_fst]
    exact components_ascend (List.pairwise_map.2 h.ascending)
  have hblocks : (innerBlocks g).Pairwise fun b b' => ∃ e ∈ b.elements, ∀ i ∈ b'.elements, e < i :=
    List.pairwise_map.2 (List.pairwise_map.1 hparts)
  refine List.pairwise_map.2 (hblocks.imp_of_mem fun {b b'} _ hb' hlt => ?_)
  obtain ⟨e, he, hlt⟩ := hlt
  obtain ⟨i, hi⟩ := List.exists_mem_of_ne_nil _ (elements_ne_nil hb')
  exact (leastElement_spec he).2.trans_lt (hlt _ (leastElement_spec hi).1)

/-- How blocks cut a flow: along the sides of its elements and into what hangs together there. -/
structure IsCutBySides (sg : StageGraph) : Prop where
  occurrences : ∀ x ∈ sg.flow.elements,
    sg.occurrences x.id = if x.isCheckpoint = true then 0 else 1
  members : ∀ b ∈ sg.blocks, ∀ i ∈ b.elements, ∃ x ∈ sg.flow.elements, x.id = i
  shared : ∀ kind, kind = .map ∨ kind = .reduce → ∀ x ∈ sg.flow.elements, ∀ y ∈ sg.flow.elements,
    ((∃ b ∈ sg.blocks, b.kind = kind ∧ x.id ∈ b.elements ∧ y.id ∈ b.elements) ↔
      sg.flow.IsOnSide kind x ∧ sg.flow.IsOnSide kind y ∧
        ReflTransGen (sg.flow.Borders kind) x y)
  ascending : ∀ b ∈ sg.blocks, b.elements.Pairwise (· < ·)
  /-- The bisection finds the elements of a block and no others. -/
  found : ∀ b ∈ sg.blocks, ∀ i, b.contains i = true ↔ i ∈ b.elements
  inhabited : ∀ b ∈ sg.blocks, b.isStaged = true → b.elements ≠ []
  numbers : (sg.blocks.filter (·.isStaged)).map (·.id)
    = List.range' 1 (sg.blocks.filter (·.isStaged)).length
  leastElements : ((sg.blocks.filter (·.isStaged)).map (·.leastElement)).Pairwise (· < ·)

theorem occurrences_plan (h : g.Coherent) (hx : x ∈ g.elements) :
    (plan g).1.occurrences x.id = if x.isCheckpoint = true then 0 else 1 := by
  show ((blocksOf g).flatMap (·.elements)).count x.id = _
  by_cases hc : x.isCheckpoint = true
  · rw [if_pos hc, List.count_eq_zero]
    intro hmem
    obtain ⟨b, hb, hxb⟩ := List.mem_flatMap.1 hmem
    rw [isCheckpoint_of_mem_elements h hb hx hxb] at hc
    cases hc
  · rw [if_neg hc]
    obtain ⟨b, hb, hxb⟩ := exists_block h hx (Bool.not_eq_true _ ▸ hc)
    exact List.count_eq_one_of_mem (elements_blocks_nodup h) (List.mem_flatMap.2 ⟨b, hb, hxb⟩)

/-- The blocks of a plan are the parts of the two sides that hang together, with the inputs and the
outputs of the flow in two more. -/
theorem plan_cuts_sides (h : g.WellFormed) : (plan g).1.IsCutBySides where
  occurrences _ hx := occurrences_plan h.coherent hx
  members _ hb _ hi := exists_of_mem_elements hb hi
  shared _ hkind _ hx _ hy := exists_shared_block_iff h.coherent hkind hx hy
  ascending _ hb := elements_ascending h.coherent hb
  found b hb i := by
    rw [Block.contains_eq_holds (elements_ascending h.coherent hb), holds_iff]
  inhabited _ hb hs := elements_ne_nil (mem_innerBlocks_of_isStaged hb hs)
  numbers := by
    show ((blocksOf g).filter _).map _ = List.range' 1 ((blocksOf g).filter _).length
    rw [filter_isStaged_blocksOf, ids_innerBlocks]
  leastElements := by
    show (((blocksOf g).filter _).map _).Pairwise _
    rw [filter_isStaged_blocksOf]
    exact leastElements_ascend h.coherent

/-- Two operators on the map side, the second of which reads its own output, a shuffle with an
operator behind it, and behind a checkpoint an operator that is on the map side again. -/
def sides : FlowGraph :=
  let key : PortDecl := { PortDecl.plain "in" "Record" with key := some ⟨["key"], []⟩ }
  let plain (name : String) : PortDecl := .plain name "Record"
  let work (name kind : String) (inputs : List PortDecl) (boundary : Boundary) : ElementDecl :=
    .operator name { name, kind, resources := [] } inputs [plain "out"] boundary
  assemble
    [.input "in" "Record", work "m1" "update" [plain "in"] .none,
      work "m2" "merge" [plain "left", plain "right"] .none, work "r" "fold" [key] .shuffle,
      work "n" "update" [plain "in"] .none, .pseudo "c" "Record" .stage,
      work "k" "update" [plain "in"] .none, .output "out" "Record"]
    [(0, 1), (0, 3), (5, 4), (2, 6), (7, 8), (9, 10), (11, 12), (13, 14)]

/-- The shuffle and the operator behind it are joined on the reduce side.  The two operators on the
map side are not, since only the input feeds both of them and nothing leads from one to the
other. -/
theorem sides_cut : sides.WellFormed ∧
    (∃ x ∈ sides.elements, ∃ y ∈ sides.elements, x.id = 3 ∧ y.id = 4 ∧
      ReflTransGen (sides.Borders .reduce) x y) ∧
    (∃ x ∈ sides.elements, ∃ y ∈ sides.elements, x.id = 1 ∧ y.id = 2 ∧ sides.IsOnSide .map x ∧
      sides.IsOnSide .map y ∧ ¬ ReflTransGen (sides.Borders .map) x y) ∧
    (plan sides).1.IsCutBySides := by
  have hwf : sides.WellFormed := assemble_wellFormed _ (by simp)
  have hcut := plan_cuts_sides hwf
  have hids : ∀ i ∈ [1, 2, 3, 4], i ∈ sides.elementIds := by decide +kernel
  have htogether : ∃ b ∈ blocksOf sides, b.kind = .reduce ∧ 3 ∈ b.elements ∧ 4 ∈ b.elements := by
    decide +kernel
  have hmaps : (∃ b ∈ blocksOf sides, b.kind = .map ∧ 1 ∈ b.elements ∧ 1 ∈ b.elements) ∧
      (∃ b ∈ blocksOf sides, b.kind = .map ∧ 2 ∈ b.elements ∧ 2 ∈ b.elements) ∧
      ¬ ∃ b ∈ blocksOf sides, b.kind = .map ∧ 1 ∈ b.elements ∧ 2 ∈ b.elements := by
    decide +kernel
  obtain ⟨m₁, hm₁, h₁⟩ := mem_elementIds.1 (hids 1 (by decide))
  obtain ⟨m₂, hm₂, h₂⟩ := mem_elementIds.1 (hids 2 (by decide))
  obtain ⟨r, hr, h₃⟩ := mem_elementIds.1 (hids 3 (by decide))
  obtain ⟨n, hn, h₄⟩ := mem_elementIds.1 (hids 4 (by decide))
  have hreduce := hcut.shared .reduce (.inr rfl) r hr n hn
  have hmap := hcut.shared .map (.inl rfl)
  have hon₁ := hmap m₁ hm₁ m₁ hm₁
  have hon₂ := hmap m₂ hm₂ m₂ hm₂
  have hapart := hmap m₁ hm₁ m₂ hm₂
  rw [h₃, h₄] at hreduce
  rw [h₁] at hon₁
  rw [h₂] at hon₂
  rw [h₁, h₂] at hapart
  have hside₁ := (hon₁.1 hmaps.1).1
  have hside₂ := (hon₂.1 hmaps.2.1).1
  refine ⟨hwf, ⟨r, hr, n, hn, h₃, h₄, (hreduce.1 htogether).2.2⟩,
    ⟨m₁, hm₁, m₂, hm₂, h₁, h₂, hside₁, hside₂, fun hjoined => ?_⟩, hcut⟩
  exact hmaps.2.2 (hapart.2 ⟨hside₁, hside₂, hjoined⟩)

end StageGraph
end FlowPlan
