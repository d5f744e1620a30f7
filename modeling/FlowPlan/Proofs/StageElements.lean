import FlowPlan.Proofs.Chains
import FlowPlan.Proofs.StageOrder
import FlowPlan.StageModel

/-!
The fragments of all stages hold every element that is not materialized, and each once.

Stages divide the map and reduce blocks, those divide the elements, and the chains of a block divide
its elements.  Each division is a permutation, and `fragments_perm` puts the three together.
-/

namespace FlowPlan
namespace StageGraph

open FlowGraph

variable {g : FlowGraph} {b : Block}

/-! ## Stages divide the blocks -/

theorem blocksOf_nodup (g : FlowGraph) : (blocksOf g).Nodup := by
  refine List.Nodup.of_map (·.id) ?_
  rw [ids_blocksOf]
  exact List.nodup_range

theorem blocksOf_ascending (g : FlowGraph) : (blocksOf g).Pairwise (·.id < ·.id) := by
  refine List.pairwise_map.1 ?_
  rw [ids_blocksOf]
  exact List.pairwise_lt_range

/-- Blocks are found by their numbers. -/
theorem filterMap_block? {bs : List Block} (hbs : ∀ b ∈ bs, b ∈ blocksOf g) :
    (bs.map (·.id)).filterMap (plan g).1.block? = bs := by
  rw [List.filterMap_map]
  induction bs with
  | nil => rfl
  | cons b bs ih =>
    have hb : (plan g).1.block? b.id = some b := getElem?_blocksOf (hbs b List.mem_cons_self)
    rw [List.filterMap_cons, Function.comp_apply, hb,
      ih fun b' hb' => hbs b' (List.mem_cons_of_mem b hb')]

/-- The blocks of a stage by its leader. -/
def membersOf (g : FlowGraph) (leader : BlockId) : List Block :=
  (blocksOf g).filter fun b => b.isStaged && leaderOf g b.id == leader

theorem blocks_stage_perm (leader : BlockId) (n : Nat) :
    ((stageOfLeader g leader n).blocks.filterMap (plan g).1.block?).Perm (membersOf g leader) := by
  have hblocks : (stageOfLeader g leader n).blocks
      = ((membersOf g leader).filter (·.isMap)).map (·.id)
        ++ ((membersOf g leader).filter (·.isReduce)).map (·.id) := rfl
  have hmem : ∀ b ∈ membersOf g leader, b ∈ blocksOf g := fun b hb => (List.mem_filter.1 hb).1
  rw [hblocks, List.filterMap_append,
    filterMap_block? fun b hb => hmem b (List.mem_filter.1 hb).1,
    filterMap_block? fun b hb => hmem b (List.mem_filter.1 hb).1]
  -- A staged block that is no map block is a reduce block.
  have hother : (membersOf g leader).filter (·.isReduce)
      = (membersOf g leader).filter fun b => !b.isMap := by
    refine List.filter_congr fun b hb => ?_
    have hstaged := (List.mem_filter.1 hb).2
    simp only [Block.isStaged, Bool.and_eq_true, Bool.or_eq_true] at hstaged
    unfold Block.isMap Block.isReduce at hstaged ⊢
    cases hk : b.kind <;> simp_all
  rw [hother]
  exact List.filter_append_perm _ _

theorem stages_perm (g : FlowGraph) :
    ((plan g).1.stages.flatMap fun stage => stage.blocks.filterMap (plan g).1.block?).Perm
      ((blocksOf g).filter (·.isStaged)) := by
  have hmembers : ((plan g).1.stages.flatMap fun stage =>
      stage.blocks.filterMap (plan g).1.block?).Perm ((stageLeaders g).flatMap (membersOf g)) := by
    have hfst : stageLeaders g = ((stageLeaders g).zipIdx 1).map (·.1) := by
      rw [List.zipIdx_map_fst]
    rw [stages_plan, List.flatMap_map]
    conv => rhs; rw [hfst, List.flatMap_map]
    exact List.Perm.flatMap_left _ fun place _ => blocks_stage_perm place.1 place.2
  refine hmembers.trans ((List.perm_ext_iff_of_nodup ?_
    ((blocksOf_nodup g).filter _)).2 fun b => ?_)
  · refine List.nodup_flatMap.2 ⟨fun leader _ => (blocksOf_nodup g).filter _, ?_⟩
    refine (stageLeaders_nodup g).imp fun hne b hb hb' => hne ?_
    simp only [membersOf, List.mem_filter, Bool.and_eq_true, beq_iff_eq] at hb hb'
    exact hb.2.2.symm.trans hb'.2.2
  · simp only [List.mem_flatMap, membersOf, List.mem_filter, Bool.and_eq_true, beq_iff_eq]
    constructor
    · intro hmem
      obtain ⟨leader, -, hb, hs, -⟩ := hmem
      exact ⟨hb, hs⟩
    · intro hmem
      obtain ⟨hb, hs⟩ := hmem
      exact ⟨leaderOf g b.id, leaderOf_mem_stageLeaders hb hs, hb, hs, rfl⟩

/-! ## Blocks divide the elements -/

theorem mem_staged : b ∈ (blocksOf g).filter (·.isStaged) ↔ b ∈ innerBlocks g := by
  rw [List.mem_filter, mem_blocksOf]
  constructor
  · intro hmem
    obtain ⟨rfl | hb | rfl, hs⟩ := hmem
    · cases hs
    · exact hb
    · cases hs
  · intro hb
    refine ⟨.inr (.inl hb), ?_⟩
    rw [Block.isStaged, Block.isMap, Block.isReduce]
    rcases kind_of_mem_innerBlocks hb with hk | hk <;> rw [hk] <;> rfl

theorem elements_sublist (hb : b ∈ innerBlocks g) : b.elements.Sublist g.elementIds := by
  obtain ⟨id, part, hpart, rfl⟩ := mem_innerBlocks hb
  exact (mem_components hpart).1

theorem exists_of_mem_elements (hb : b ∈ blocksOf g) {i : ElementId} (hi : i ∈ b.elements) :
    ∃ x ∈ g.elements, x.id = i := by
  rcases mem_blocksOf.1 hb with rfl | hb | rfl
  · obtain ⟨x, hx, hid, -⟩ := exists_of_mem_inputBlock hi
    exact ⟨x, hx, hid⟩
  · exact mem_elementIds.1 ((elements_sublist hb).subset hi)
  · obtain ⟨x, hx, hid, -⟩ := exists_of_mem_outputBlock hi
    exact ⟨x, hx, hid⟩

theorem elements_staged_perm (h : g.Coherent) :
    (((blocksOf g).filter (·.isStaged)).flatMap (·.elements)).Perm
      (g.idsWhere fun x => !x.isStageBoundary) := by
  refine (List.perm_ext_iff_of_nodup ?_ ?_).2 fun i => ?_
  · refine List.nodup_flatMap.2 ⟨fun b hb => ?_, ?_⟩
    · exact (elements_sublist (mem_staged.1 hb)).nodup h.elementIds_nodup
    · exact ((blocksOf_disjoint h).filter _).imp fun hdisj i hi hi' => hdisj i hi hi'
  · exact (h.idsWhere_ascending _).imp Nat.ne_of_lt
  · rw [List.mem_flatMap, mem_idsWhere]
    constructor
    · intro hmem
      obtain ⟨b, hb, hi⟩ := hmem
      obtain ⟨x, hx, hid, hs⟩ := exists_of_mem_innerBlock h (mem_staged.1 hb) hi
      exact ⟨x, hx, by simp [hs], hid⟩
    · intro hmem
      obtain ⟨x, hx, hs, rfl⟩ := hmem
      simp only [Bool.not_eq_true', Element.isStageBoundary, Bool.or_eq_false_iff] at hs
      obtain ⟨⟨hin, hout⟩, hcheck⟩ := hs
      obtain ⟨b, hb, hi⟩ := exists_block h hx hcheck
      refine ⟨b, mem_staged.2 ?_, hi⟩
      rcases mem_blocksOf.1 hb with rfl | hb | rfl
      · obtain ⟨y, hy, hid, hyin⟩ := exists_of_mem_inputBlock hi
        rw [h.eq_of_id_eq hy hx hid, hin] at hyin
        cases hyin
      · exact hb
      · obtain ⟨y, hy, hid, hyout⟩ := exists_of_mem_outputBlock hi
        rw [h.eq_of_id_eq hy hx hid, hout] at hyout
        cases hyout

/-! ## Fragments divide the elements of a block -/

section Fragments

variable {processors : ProcessorRegistry} {level : ElementId → Nat}

theorem list_foldl_addBlock (processor : ElementId → Processor) (bs : List Block)
    (fs : Fragments) :
    ((bs.foldl (fun fs block => fs.addBlock { flow := g, block, processor }) fs).list).flatMap
        (·.elements)
      = fs.list.flatMap (·.elements)
        ++ bs.flatMap fun block =>
          (Fragmentation.Setting.chains ⟨g, block, processor⟩).flatten := by
  induction bs generalizing fs with
  | nil => simp
  | cons b bs ih =>
    rw [List.foldl_cons, ih, List.flatMap_cons, ← List.append_assoc]
    congr 1
    rw [Fragments.addBlock, List.flatMap_append, Fragmentation.Setting.elements_fragments]

theorem fragmentsOf_perm (h : g.Coherent) (hlevel : g.IsLevelling level) {stage : Stage}
    (hstage : stage ∈ (plan g).1.stages) :
    ((StageModel.fragmentsOf (plan g).1 stage processors).list.flatMap (·.elements)).Perm
      ((stage.blocks.filterMap (plan g).1.block?).flatMap (·.elements)) := by
  rw [StageModel.fragmentsOf, list_foldl_addBlock]
  refine List.Perm.flatMap_left _ fun b hb => ?_
  have hinner : b ∈ innerBlocks g := by
    refine mem_staged.1 ((stages_perm g).mem_iff.1 ?_)
    exact List.mem_flatMap.2 ⟨stage, hstage, hb⟩
  have hsub := elements_sublist hinner
  exact Fragmentation.Setting.chains_perm h (fun e he => mem_elementIds.1 (hsub.subset he)) hlevel
    (hsub.nodup h.elementIds_nodup)

/-- The fragments of all stages of a plan hold every element that is not materialized once. -/
theorem fragments_perm (h : g.Coherent) (hlevel : g.IsLevelling level)
    (processors : ProcessorRegistry) :
    ((plan g).1.stages.flatMap fun stage =>
      (StageModel.fragmentsOf (plan g).1 stage processors).list.flatMap (·.elements)).Perm
        (g.idsWhere fun x => !x.isStageBoundary) := by
  refine (List.Perm.flatMap_left _ fun stage hs => fragmentsOf_perm h hlevel hs).trans ?_
  rw [← List.flatMap_assoc]
  exact ((stages_perm g).flatMap_right _).trans (elements_staged_perm h)

end Fragments

end StageGraph
end FlowPlan
