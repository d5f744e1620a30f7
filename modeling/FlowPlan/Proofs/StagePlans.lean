import FlowPlan.Proofs.StageElements

/-!
What every plan promises, and what it reports.

The stages of a plan divide its blocks and are numbered in their order.  Stages that read from each
other in a circle are reported, and nothing else is reported as a circle.  Where there is none, the
order is the first of all orders in which stages come after those that they read from, when each
stage is known by its smallest block.  A plan without any report has a full certificate.

The smallest block of a stage is the root of all its blocks, so an order of stages is an order of
roots, and what `Precedence` says of roots carries over.
-/

namespace FlowPlan

/-- The values of a function on an ascending list come in ascending order, where it sends each
number to a smaller one of the list that stays where it is. -/
theorem pairwise_eraseDups_map {f : Nat → Nat} (xs : List Nat) (hasc : xs.Pairwise (· < ·))
    (hf : ∀ x ∈ xs, f x ≤ x ∧ f x ∈ xs ∧ f (f x) = f x) :
    (xs.map f).eraseDups.Pairwise (· < ·) := by
  match xs with
  | [] => exact List.Pairwise.nil
  | a :: xs =>
    obtain ⟨hlt, hasc⟩ := List.pairwise_cons.1 hasc
    obtain ⟨hle, hmem, -⟩ := hf a List.mem_cons_self
    -- The first number can only stay where it is.
    have hfix : f a = a := (List.mem_cons.1 hmem).resolve_right fun hin =>
      Nat.not_lt.2 hle (hlt _ hin)
    have hrest : ∀ x ∈ xs.filter fun x => !f x == a,
        f x ≤ x ∧ (f x ∈ xs.filter fun x => !f x == a) ∧ f (f x) = f x := by
      intro x hx
      obtain ⟨hx, hne⟩ := List.mem_filter.1 hx
      obtain ⟨hle, hmem, hidem⟩ := hf x (List.mem_cons_of_mem a hx)
      rw [Bool.not_eq_true', beq_eq_false_iff_ne] at hne
      refine ⟨hle, List.mem_filter.2 ⟨(List.mem_cons.1 hmem).resolve_left hne, ?_⟩, hidem⟩
      rw [hidem, Bool.not_eq_true', beq_eq_false_iff_ne]
      exact hne
    have ih := pairwise_eraseDups_map (xs.filter fun x => !f x == a) (hasc.filter _) hrest
    rw [List.map_cons, hfix, List.eraseDups_cons, List.filter_map]
    refine List.pairwise_cons.2 ⟨fun y hy => ?_, ih⟩
    obtain ⟨x, hx, rfl⟩ := List.mem_map.1 (List.mem_eraseDups.1 hy)
    exact hlt _ (List.mem_filter.1 (hrest x hx).2.1).1
termination_by xs.length
decreasing_by exact Nat.lt_succ_of_le (List.length_filter_le _ _)

/-- The smallest block of a stage. -/
def Stage.leastBlock (s : Stage) : BlockId := s.blocks.min?.getD 0

namespace StageGraph

open FlowGraph Relation

/-- One stage reads what another one writes. -/
def ReadsFrom (sg : StageGraph) (s t : Stage) : Prop :=
  s ∈ sg.stages ∧ t ∈ sg.stages ∧ s ≠ t ∧
    ∃ c ∈ sg.connections, ∃ u d, sg.Joins c u d ∧ u ∈ t.blocks ∧ d ∈ s.blocks

/-- No stage of the list reads from a later one. -/
def IsTopological (sg : StageGraph) (stages : List Stage) : Prop :=
  stages.Pairwise fun s t => ¬ sg.ReadsFrom s t

/-- Every map and reduce block is in one stage, no stage is empty, and the stages are numbered from
one on. -/
structure IsDivided (sg : StageGraph) : Prop where
  blocks : (sg.stages.flatMap (·.blocks)).Perm ((sg.blocks.filter (·.isStaged)).map (·.id))
  inhabited : ∀ s ∈ sg.stages, s.blocks ≠ []
  numbers : sg.stages.map (·.number) = List.range' 1 sg.stages.length

/-- The stages are in an order that respects what they read, and in every other such order a greater
block comes first where the two differ. -/
structure IsFirstOrder (sg : StageGraph) : Prop where
  topological : sg.IsTopological sg.stages
  first : ∀ stages, stages.Perm sg.stages → sg.IsTopological stages →
    stages = sg.stages ∨
      List.Lex (· < ·) (sg.stages.map (·.leastBlock)) (stages.map (·.leastBlock))

variable {g : FlowGraph} {b : Block} {x : BlockId} {s t : Stage}

/-! ## Leaders -/

theorem leaderOf_le (g : FlowGraph) (b : BlockId) : leaderOf g b ≤ b :=
  DisjointSets.root_le _ b

theorem leaderOf_leaderOf (g : FlowGraph) (b : BlockId) :
    leaderOf g (leaderOf g b) = leaderOf g b := DisjointSets.root_root _ b

/-- The leader of a map or reduce block is one, since blocks that are joined are. -/
theorem exists_leader (hb : b ∈ blocksOf g) (hs : b.isStaged = true) :
    ∃ b' ∈ blocksOf g, b'.isStaged = true ∧ b'.id = leaderOf g b.id := by
  let staged (i : BlockId) : Nat := if ((blocksOf g)[i]?).any (·.isStaged) then 1 else 0
  have hstaged : ∀ b' ∈ blocksOf g, b'.isStaged = true → staged b'.id = 1 := by
    intro b' hb' hs'
    show (if ((blocksOf g)[b'.id]?).any (·.isStaged) then 1 else 0) = 1
    rw [getElem?_blocksOf hb', Option.any_some, if_pos hs']
  have hjoined : ∀ pair ∈ joins (blocksOf g) (linksOf g), staged pair.1 = staged pair.2 := by
    intro pair hp
    rcases mem_joins hp with ⟨l, hl, hshuffle, rfl⟩ | ⟨b, hb, b', hb', ⟨hmap, hmap', -⟩, rfl⟩
    · rw [Link.isShuffle, Bool.and_eq_true] at hshuffle
      rw [hstaged _ (source_mem_blocksOf hl) (isStaged_of_isMap hshuffle.1),
        hstaged _ (target_mem_blocksOf hl) (isStaged_of_isReduce hshuffle.2)]
    · rw [hstaged b hb (isStaged_of_isMap hmap), hstaged b' hb' (isStaged_of_isMap hmap')]
  have hleader : staged (leaderOf g b.id) = 1 := by
    rw [(leaderOf_spec g).2 staged hjoined b.id, hstaged b hb hs]
  have hany : ((blocksOf g)[leaderOf g b.id]?).any (·.isStaged) = true := by
    by_contra hnot
    rw [show staged (leaderOf g b.id) = 0 from if_neg hnot] at hleader
    cases hleader
  obtain ⟨b', hget, hs'⟩ := (Option.any_eq_true _ _).1 hany
  exact ⟨b', List.mem_of_getElem? hget, hs', id_of_getElem?_blocksOf hget⟩

theorem leaders_ascending (g : FlowGraph) :
    (leaders (blocksOf g) (classes (blocksOf g) (linksOf g))).Pairwise (· < ·) := by
  have hasc : (((blocksOf g).filter (·.isStaged)).map (·.id)).Pairwise (· < ·) :=
    List.pairwise_map.2 ((blocksOf_ascending g).filter _)
  have hmap := pairwise_eraseDups_map (f := leaderOf g) _ hasc ?_
  · rwa [List.map_map] at hmap
  · intro i hi
    obtain ⟨b, hmem, rfl⟩ := List.mem_map.1 hi
    obtain ⟨hb, hs⟩ := List.mem_filter.1 hmem
    obtain ⟨b', hb', hs', hid⟩ := exists_leader hb hs
    exact ⟨leaderOf_le g b.id, List.mem_map.2 ⟨b', List.mem_filter.2 ⟨hb', hs'⟩, hid⟩,
      leaderOf_leaderOf g b.id⟩

/-! ## Stages by their leaders -/

/-- The block that leads a stage is in it. -/
theorem exists_block_of_leader (hx : x ∈ stageLeaders g) :
    ∃ b ∈ blocksOf g, b.isStaged = true ∧ b.id = x ∧ leaderOf g b.id = x := by
  obtain ⟨b, hb, hs, rfl⟩ := mem_leaders.1 ((stageLeaders_perm g).mem_iff.1 hx)
  obtain ⟨b', hb', hs', hid⟩ := exists_leader hb hs
  exact ⟨b', hb', hs', hid, by rw [hid, leaderOf_leaderOf]⟩

theorem blocks_stageOfLeader (g : FlowGraph) (x : BlockId) (n : Nat) :
    (stageOfLeader g x n).blocks
      = ((membersOf g x).filter (·.isMap) ++ (membersOf g x).filter (·.isReduce)).map (·.id) := by
  rw [List.map_append]
  rfl

theorem mem_membersOf
    (hb : b ∈ (membersOf g x).filter (·.isMap) ++ (membersOf g x).filter (·.isReduce)) :
    b ∈ membersOf g x :=
  (List.mem_append.1 hb).elim List.mem_of_mem_filter List.mem_of_mem_filter

theorem exists_block_of_mem_blocks {i : BlockId} {n : Nat} (hi : i ∈ (stageOfLeader g x n).blocks) :
    ∃ b ∈ blocksOf g, b.isStaged = true ∧ b.id = i ∧ leaderOf g b.id = x := by
  rw [blocks_stageOfLeader] at hi
  obtain ⟨b, hmem, rfl⟩ := List.mem_map.1 hi
  obtain ⟨hb, hcond⟩ := List.mem_filter.1 (mem_membersOf hmem)
  rw [Bool.and_eq_true, beq_iff_eq] at hcond
  exact ⟨b, hb, hcond.1, rfl, hcond.2⟩

theorem leastBlock_stageOfLeader (hx : x ∈ stageLeaders g) (n : Nat) :
    (stageOfLeader g x n).leastBlock = x := by
  have hmin : (stageOfLeader g x n).blocks.min? = some x := by
    refine List.min?_eq_some_iff.2 ⟨?_, fun i hi => ?_⟩
    · obtain ⟨b, hb, hs, rfl, hl⟩ := exists_block_of_leader hx
      exact (mem_blocks hb).2 ⟨hs, hl⟩
    · obtain ⟨b, -, -, rfl, rfl⟩ := exists_block_of_mem_blocks hi
      exact leaderOf_le g b.id
  rw [Stage.leastBlock, hmin]
  rfl

theorem leastBlock_mem (hs : s ∈ (plan g).1.stages) :
    s.leastBlock ∈ stageLeaders g ∧ stageAt g s.leastBlock = s := by
  rw [stages_eq_map] at hs
  obtain ⟨x, hx, rfl⟩ := List.mem_map.1 hs
  rw [stageAt, leastBlock_stageOfLeader hx]
  exact ⟨hx, rfl⟩

theorem map_leastBlock_stages (g : FlowGraph) :
    (plan g).1.stages.map (·.leastBlock) = stageLeaders g := by
  rw [stages_eq_map, List.map_map]
  exact (List.map_congr_left fun x hx => leastBlock_stageOfLeader hx _).trans (List.map_id _)

/-! ## Stages divide the blocks -/

theorem isDivided_plan (g : FlowGraph) : (plan g).1.IsDivided where
  blocks := by
    have hids : (plan g).1.stages.flatMap (·.blocks) = ((plan g).1.stages.flatMap fun stage =>
        stage.blocks.filterMap (plan g).1.block?).map (·.id) := by
      rw [List.map_flatMap]
      refine List.flatMap_congr fun s hs => ?_
      obtain ⟨x, -, rfl⟩ := mem_stages hs
      rw [blocks_stageOfLeader, filterMap_block? fun b hb => ?_]
      exact List.mem_of_mem_filter (mem_membersOf hb)
    rw [hids]
    exact (stages_perm g).map _
  inhabited := by
    intro s hs
    obtain ⟨x, hx, rfl⟩ := mem_stages hs
    obtain ⟨b, hb, hs, -, hl⟩ := exists_block_of_leader hx
    exact List.ne_nil_of_mem ((mem_blocks hb).2 ⟨hs, hl⟩)
  numbers := by
    rw [stages_plan, List.map_map, List.length_map, List.length_zipIdx]
    exact List.zipIdx_map_snd 1 (stageLeaders g)

theorem isStaged_plan (g : FlowGraph) : (plan g).1.isStaged = true := by
  refine List.all_eq_true.2 fun b hmem => ?_
  obtain ⟨hb, hs⟩ := List.mem_filter.1 hmem
  have hfilter : (stageLeaders g).filter
      ((fun s : Stage => s.blocks.contains b.id) ∘ stageAt g)
        = (stageLeaders g).filter (· == leaderOf g b.id) := by
    refine List.filter_congr fun x _ => ?_
    rw [Bool.eq_iff_iff, Function.comp_apply, List.contains_iff_mem, stageAt, mem_blocks hb,
      beq_iff_eq, and_iff_right hs, eq_comm]
  rw [stages_eq_map, List.filter_map, List.length_map, hfilter, ← List.count_eq_length_filter,
    List.count_eq_one_of_mem (stageLeaders_nodup g) (leaderOf_mem_stageLeaders hb hs)]
  rfl

/-- The elements of a block are listed in the order of their numbers. -/
theorem elements_ascending (h : g.Coherent) (hb : b ∈ blocksOf g) :
    b.elements.Pairwise (· < ·) := by
  rcases mem_blocksOf.1 hb with rfl | hb | rfl
  · exact h.idsWhere_ascending _
  · exact (List.pairwise_map.2 h.ascending).sublist (elements_sublist hb)
  · exact h.idsWhere_ascending _

theorem elements_nodup_of_mem_blocksOf (h : g.Coherent) (hb : b ∈ blocksOf g) :
    b.elements.Nodup := (elements_ascending h hb).imp Nat.ne_of_lt

/-- No element occurs twice in the blocks. -/
theorem elements_blocks_nodup (h : g.Coherent) : ((blocksOf g).flatMap (·.elements)).Nodup :=
  List.nodup_flatMap.2 ⟨fun _ hb => elements_nodup_of_mem_blocksOf h hb, blocksOf_disjoint h⟩

theorem isPartitioned_plan (h : g.Coherent) : (plan g).1.isPartitioned = true := by
  refine List.all_eq_true.2 fun i hi => ?_
  obtain ⟨x, hx, hb, rfl⟩ := mem_idsWhere.1 hi
  have hcheck : x.isCheckpoint = false := by
    rw [Bool.not_eq_true', Element.isBoundary, Element.isStageBoundary, Bool.or_eq_false_iff,
      Bool.or_eq_false_iff] at hb
    exact hb.1.2
  obtain ⟨b, hb, hmem⟩ := exists_block h hx hcheck
  rw [beq_iff_eq]
  exact List.count_eq_one_of_mem (elements_blocks_nodup h) (List.mem_flatMap.2 ⟨b, hb, hmem⟩)

/-! ## The order of the stages -/

theorem mem_stageLeaders_of_mem_needsOf {y : BlockId} (hneed : y ∈ needsOf g x) :
    x ∈ stageLeaders g ∧ y ∈ stageLeaders g := by
  obtain ⟨l, hl, hs, hd, rfl, rfl, -⟩ := mem_needsOf.1 hneed
  exact ⟨leaderOf_mem_stageLeaders (target_mem_blocksOf hl) hd,
    leaderOf_mem_stageLeaders (source_mem_blocksOf hl) hs⟩

/-- Stages read from each other as their leaders need each other. -/
theorem ReadsFrom.mem_needsOf (h : g.Coherent) (hr : (plan g).1.ReadsFrom s t) :
    t.leastBlock ∈ needsOf g s.leastBlock := by
  obtain ⟨hs, ht, hne, c, hc, u, d, hj, hu, hd⟩ := hr
  have hsx := (leastBlock_mem hs).2
  have hty := (leastBlock_mem ht).2
  obtain ⟨l, hl, rfl, rfl, rfl⟩ := exists_link h hc hj
  rw [← hty] at hu
  rw [← hsx] at hd
  obtain ⟨hstaged, hsource⟩ := (mem_blocks (source_mem_blocksOf hl)).1 hu
  obtain ⟨hstaged', htarget⟩ := (mem_blocks (target_mem_blocksOf hl)).1 hd
  refine StageGraph.mem_needsOf.2 ⟨l, hl, hstaged, hstaged', htarget, hsource, fun heq => hne ?_⟩
  rw [← hsx, ← hty, heq]

theorem readsFrom_of_mem_needsOf (h : g.Coherent) {y : BlockId} (hneed : y ∈ needsOf g x) :
    (plan g).1.ReadsFrom (stageAt g x) (stageAt g y) := by
  obtain ⟨hx, hy⟩ := mem_stageLeaders_of_mem_needsOf hneed
  obtain ⟨l, hl, hs, hd, rfl, rfl, hne⟩ := mem_needsOf.1 hneed
  rw [ReadsFrom, stages_eq_map]
  refine ⟨List.mem_map_of_mem hx, List.mem_map_of_mem hy, fun heq => hne ?_,
    l.connection, List.mem_map_of_mem hl, _, _, joins_of_mem_linksOf h hl,
    (mem_blocks (source_mem_blocksOf hl)).2 ⟨hs, rfl⟩,
    (mem_blocks (target_mem_blocksOf hl)).2 ⟨hd, rfl⟩⟩
  have hleast := congrArg Stage.leastBlock heq
  rw [stageAt, stageAt, leastBlock_stageOfLeader hx, leastBlock_stageOfLeader hy] at hleast
  exact hleast.symm

/-- Stages are left over by the order exactly if some of them read from each other in a circle. -/
theorem left_eq_nil_iff (h : g.Coherent) :
    (leaderOrder g).2 = [] ↔ ∀ s, ¬ TransGen (plan g).1.ReadsFrom s s := by
  have hneeds : (leaderOrder g).2 = [] ↔
      ∀ x, ¬ TransGen (fun x y => y ∈ needsOf g x) x x :=
    Precedence.order_left_eq_nil_iff (not_mem_needsOf_self g) fun x y hneed =>
      (mem_stageLeaders_of_mem_needsOf hneed).imp (stageLeaders_perm g).mem_iff.1
        (stageLeaders_perm g).mem_iff.1
  refine hneeds.trans ⟨fun hno s hs => ?_, fun hno x hx => ?_⟩
  · exact hno _ (TransGen.lift Stage.leastBlock (fun _ _ hr => hr.mem_needsOf h) _ _ hs)
  · exact hno _ (TransGen.lift (stageAt g) (fun _ _ hn => readsFrom_of_mem_needsOf h hn) _ _ hx)

theorem isFirstOrder_of_left_eq_nil (h : g.Coherent) (hleft : (leaderOrder g).2 = []) :
    (plan g).1.IsFirstOrder where
  topological := by
    rw [IsTopological, stages_eq_map, List.pairwise_map]
    refine (stageLeaders_pairwise hleft).imp_of_mem fun hx hy hnot hr => hnot ?_
    have hneed := hr.mem_needsOf h
    rwa [stageAt, stageAt, leastBlock_stageOfLeader hx, leastBlock_stageOfLeader hy] at hneed
  first := by
    intro stages hperm htop
    have hback : stages = (stages.map (·.leastBlock)).map (stageAt g) := by
      rw [List.map_map]
      conv => lhs; rw [← List.map_id stages]
      exact List.map_congr_left fun s hs => (leastBlock_mem (hperm.subset hs)).2.symm
    have hneeds : (stages.map (·.leastBlock)).Pairwise fun x y => y ∉ needsOf g x := by
      refine List.pairwise_map.2 (htop.imp_of_mem fun hs ht hnot hneed => hnot ?_)
      have hr := readsFrom_of_mem_needsOf h hneed
      rwa [(leastBlock_mem (hperm.subset hs)).2, (leastBlock_mem (hperm.subset ht)).2] at hr
    have hleaders : (stages.map (·.leastBlock)).Perm
        (leaders (blocksOf g) (classes (blocksOf g) (linksOf g))) := by
      have hmap := hperm.map (·.leastBlock)
      rw [map_leastBlock_stages] at hmap
      exact hmap.trans (stageLeaders_perm g)
    have hfirst : stages.map (·.leastBlock) = (leaderOrder g).1 ∨
        List.Lex (· < ·) (leaderOrder g).1 (stages.map (·.leastBlock)) :=
      Precedence.eq_or_lex_order (leaders_ascending g) (not_mem_needsOf_self g) hleaders hneeds
    have horder : (leaderOrder g).1 = stageLeaders g := by
      rw [stageLeaders, hleft, List.append_nil]
    rw [horder] at hfirst
    rw [map_leastBlock_stages]
    refine hfirst.imp_left fun heq => ?_
    rw [hback, heq, stages_eq_map]

/-! ## What is reported -/

theorem elements_ne_nil (hb : b ∈ innerBlocks g) : b.elements ≠ [] := by
  obtain ⟨id, part, hpart, rfl⟩ := mem_innerBlocks hb
  exact (mem_components hpart).2.1

/-- Whatever is left over, there is an element to report the circle at. -/
theorem cycleDefects_eq (hleft : (leaderOrder g).2 ≠ []) :
    ∃ e b, cycleDefects g (blocksOf g) (leaderOrder g).2 = [.cyclic e b] := by
  obtain ⟨x, left, heq⟩ := List.exists_cons_of_ne_nil hleft
  have hx : x ∈ stageLeaders g := by
    rw [stageLeaders, heq]
    exact List.mem_append_right _ List.mem_cons_self
  obtain ⟨b, hb, hs, rfl, -⟩ := exists_block_of_leader hx
  have hinner := mem_staged.1 (List.mem_filter.2 ⟨hb, hs⟩)
  obtain ⟨i, elements, helems⟩ := List.exists_cons_of_ne_nil (elements_ne_nil hinner)
  refine ⟨g.ref i, b.id, ?_⟩
  rw [cycleDefects, heq, List.head?_cons, Option.bind_some, getElem?_blocksOf hb]
  dsimp only
  rw [helems]
  rfl

theorem exists_cyclic_iff (g : FlowGraph) :
    (∃ e b, Defect.cyclic e b ∈ (plan g).2) ↔ (leaderOrder g).2 ≠ [] := by
  rw [defects_plan]
  constructor
  · rintro ⟨e, b, hmem⟩ hleft
    rw [hleft, cycleDefects, List.head?_nil, Option.bind_none, List.append_nil] at hmem
    rcases List.mem_append.1 hmem with hmem | hmem
    · obtain ⟨r, -, hd⟩ := List.mem_flatMap.1 hmem
      cases isOrdering_of_mem_defects hd
    · obtain ⟨l, -, heq⟩ := List.mem_map.1 hmem
      cases heq
  · intro hleft
    obtain ⟨e, b, heq⟩ := cycleDefects_eq hleft
    exact ⟨e, b, List.mem_append_right _ (heq ▸ List.mem_singleton_self _)⟩

/-- Without a report, the places of the stages are a schedule. -/
theorem isSchedule_of_quiet (h : g.Coherent) (hquiet : (plan g).2 = []) :
    (plan g).1.IsSchedule (stagePlace g) := by
  have hleft : (leaderOrder g).2 = [] := by
    by_contra hleft
    obtain ⟨e, b, hmem⟩ := (exists_cyclic_iff g).2 hleft
    rw [hquiet] at hmem
    cases hmem
  rw [defects_plan, List.append_eq_nil_iff, List.append_eq_nil_iff, selfDefects,
    List.map_eq_nil_iff, List.filter_eq_nil_iff] at hquiet
  refine isSchedule_stagePlace h fun l hl hs hd hnot => ?_
  refine stagePlace_lt_of_link hleft hl hs hd fun heq => hquiet.1.2 l ?_ ?_
  · exact List.mem_filter.2 ⟨hl, by rw [hs, hd]; rfl⟩
  · rw [hnot, Bool.not_false, Bool.and_true, beq_iff_eq]
    exact heq

theorem certificate_of_quiet (h : g.Coherent) (hquiet : (plan g).2 = []) :
    (plan g).1.certificate.allPass = true := by
  have hordered := isOrdered_of_inOrder h (inOrder_of_isSchedule h (isSchedule_of_quiet h hquiet))
  simp only [certificate, Certificate.allPass, List.all_cons, List.all_nil, isPartitioned_plan h,
    isStaged_plan g, hordered, Bool.and_self]

/-- What a plan promises and reports about its stages, for any graph. -/
theorem plan_reports_order (h : g.WellFormed) :
    (plan g).1.IsDivided ∧
      ((∃ e b, Defect.cyclic e b ∈ (plan g).2) ↔ ∃ s, TransGen (plan g).1.ReadsFrom s s) ∧
      ((¬ ∃ s, TransGen (plan g).1.ReadsFrom s s) → (plan g).1.IsFirstOrder) ∧
      ((plan g).2 = [] → (plan g).1.certificate.allPass = true) := by
  have hcircle : (∃ s, TransGen (plan g).1.ReadsFrom s s) ↔ (leaderOrder g).2 ≠ [] := by
    rw [ne_eq, left_eq_nil_iff h.coherent, not_forall_not]
  refine ⟨isDivided_plan g, (exists_cyclic_iff g).trans hcircle.symm, fun hnone => ?_,
    certificate_of_quiet h.coherent⟩
  rw [hcircle, not_not] at hnone
  exact isFirstOrder_of_left_eq_nil h.coherent hnone

/-- Two operators that read each other's data, each through a checkpoint. -/
def ring : FlowGraph :=
  let desc (name kind : String) : OperatorDesc := { name, kind, resources := [] }
  assemble
    [.input "in" "Record",
      .operator "m" (desc "m" "confluent") [.plain "new" "Record", .plain "back" "Record"]
        [.plain "out" "Record"] .none,
      .pseudo "c" "Record" .stage,
      .operator "n" (desc "n" "update") [.plain "in" "Record"] [.plain "out" "Record"] .none,
      .pseudo "d" "Record" .stage, .output "out" "Record"]
    [(0, 1), (9, 2), (3, 4), (5, 6), (7, 8), (7, 10)]

/-- Two operators with a checkpoint between them, the second one declared first. -/
def upstream : FlowGraph :=
  let work (name : String) : ElementDecl :=
    .operator name { name, kind := "update", resources := [] } [.plain "in" "Record"]
      [.plain "out" "Record"] .none
  assemble
    [.input "in" "Record", work "n", work "m", .pseudo "c" "Record" .stage,
      .output "out" "Record"]
    [(0, 3), (4, 5), (6, 1), (2, 7)]

theorem leaderOrder_ring : leaderOrder ring = ([], [1, 2]) := by
  have hleaders : leaders (blocksOf ring) (classes (blocksOf ring) (linksOf ring)) = [1, 2] := by
    cbv
  rw [leaderOrder, hleaders]
  exact Precedence.order_of_none (by cbv)

theorem leaderOrder_upstream : leaderOrder upstream = ([2, 1], []) := by
  have hleaders : leaders (blocksOf upstream)
      (classes (blocksOf upstream) (linksOf upstream)) = [1, 2] := by
    cbv
  have hfirst : [1, 2].find? (Precedence.isReady (needsOf upstream) [1, 2]) = some 2 := by cbv
  rw [leaderOrder, hleaders, Precedence.order_of_some hfirst, show [1, 2].erase 2 = [1] from rfl,
    Precedence.order_singleton (not_mem_needsOf_self upstream 1)]

theorem ring_and_upstream_reported :
    (ring.WellFormed ∧ ∃ s, TransGen (plan ring).1.ReadsFrom s s) ∧
      upstream.WellFormed ∧ (plan upstream).1.stages.map (·.leastBlock) = [2, 1] ∧
        (plan upstream).1.IsFirstOrder ∧ (plan upstream).1.certificate.allPass = true := by
  have hring : ring.WellFormed := assemble_wellFormed _ (by simp)
  have hup : upstream.WellFormed := assemble_wellFormed _ (by simp)
  have hreported : ∃ e b, Defect.cyclic e b ∈ (plan ring).2 := by
    rw [exists_cyclic_iff, leaderOrder_ring]
    exact List.cons_ne_nil 1 [2]
  have hquiet : (plan upstream).2 = [] := by
    rw [defects_plan, leaderOrder_upstream]
    cbv
  have hleast : (plan upstream).1.stages.map (·.leastBlock) = [2, 1] := by
    rw [map_leastBlock_stages, stageLeaders, leaderOrder_upstream]
    rfl
  obtain ⟨-, hcyclic, hfirst, hpass⟩ := plan_reports_order hup
  refine ⟨⟨hring, (plan_reports_order hring).2.1.1 hreported⟩, hup, hleast,
    hfirst fun hcircle => ?_, hpass hquiet⟩
  obtain ⟨e, b, hmem⟩ := hcyclic.2 hcircle
  rw [hquiet] at hmem
  cases hmem

end StageGraph
end FlowPlan
