import FlowPlan.Legality
import FlowPlan.Proofs.Precedence
import FlowPlan.Proofs.StageClasses
import Mathlib

/-!
When the stages of a plan can be run in order.

A schedule gives every block a time: blocks that have to share a stage the same time, and every
other reader a later time than what it reads.  `normalization_orders_stages_iff` says that the
stages of a normal form are in order, and nothing about their order is reported, exactly if its
blocks have a schedule.  Legality and the certificate of the normal form do not provide one: an
operator that shuffles its input twice, once directly and once through another shuffle, as in
`selfJoin`, would have to run before and after itself.
-/

namespace FlowPlan

/-- What is reported about the order of stages. -/
def Defect.isOrdering : Defect → Bool
  | .selfDependent _ _ => true
  | .cyclic _ _ => true
  | _ => false

namespace StageGraph

open FlowGraph

/-- Times at which the blocks can run. -/
structure IsSchedule (sg : StageGraph) (time : BlockId → Nat) : Prop where
  /-- A reduce block runs with the map blocks that it shuffles from. -/
  shuffles : ∀ c ∈ sg.connections, ∀ u d, sg.Joins c u d → sg.isMap u = true →
    sg.isReduce d = true → time u = time d
  /-- Map blocks that read the same data run together. -/
  readers : ∀ u d, sg.isMap u = true → sg.isMap d = true → (∃ p, sg.Reads u p) →
    (∀ p, sg.Reads u p ↔ sg.Reads d p) → time u = time d
  /-- Everything else is there before it is read. -/
  waits : ∀ c ∈ sg.connections, ∀ u d, sg.Joins c u d → (sg.isMap u || sg.isReduce u) = true →
    (sg.isMap d || sg.isReduce d) = true → ¬ (sg.isMap u = true ∧ sg.isReduce d = true) →
      time u < time d

/-- Data goes to a stage with a greater number, or from the map blocks of a stage to its reduce
blocks. -/
def InOrder (sg : StageGraph) : Prop :=
  ∀ c ∈ sg.connections, ∀ u d, sg.Joins c u d → ∀ s ∈ sg.stages, ∀ s' ∈ sg.stages,
    u ∈ s.blocks → d ∈ s'.blocks →
      s.number < s'.number ∨ (s = s' ∧ u ∈ s.mapBlocks ∧ d ∈ s.reduceBlocks)

variable {g : FlowGraph} {l : Link} {b : Block} {time : BlockId → Nat}

/-! ## Stages and their blocks -/

/-- The leaders of the stages that a stage reads from. -/
def needsOf (g : FlowGraph) : BlockId → List BlockId :=
  needs (classes (blocksOf g) (linksOf g)) (linksOf g)

/-- The leaders that come in an order, and those that are left over. -/
def leaderOrder (g : FlowGraph) : List BlockId × List BlockId :=
  Precedence.order (needsOf g) (leaders (blocksOf g) (classes (blocksOf g) (linksOf g)))

/-- The leaders of the stages, in the order of the stages. -/
def stageLeaders (g : FlowGraph) : List BlockId := (leaderOrder g).1 ++ (leaderOrder g).2

def stageOfLeader (g : FlowGraph) (leader : BlockId) (number : Nat) : Stage :=
  makeStage (blocksOf g) (classes (blocksOf g) (linksOf g)) leader number

theorem stages_plan (g : FlowGraph) :
    (plan g).1.stages
      = ((stageLeaders g).zipIdx 1).map fun (leader, n) => stageOfLeader g leader n := rfl

theorem stageLeaders_perm (g : FlowGraph) :
    (stageLeaders g).Perm (leaders (blocksOf g) (classes (blocksOf g) (linksOf g))) :=
  Precedence.order_perm _ _

theorem stageLeaders_nodup (g : FlowGraph) : (stageLeaders g).Nodup :=
  (stageLeaders_perm g).nodup_iff.2 (nodup_eraseDups _)

theorem mem_leaders {leader : BlockId} :
    leader ∈ leaders (blocksOf g) (classes (blocksOf g) (linksOf g)) ↔
      ∃ b ∈ blocksOf g, b.isStaged = true ∧ leaderOf g b.id = leader := by
  rw [leaders, List.mem_eraseDups, List.mem_map]
  simp only [List.mem_filter, and_assoc]
  rfl

theorem leaderOf_mem_stageLeaders (hb : b ∈ blocksOf g) (hs : b.isStaged = true) :
    leaderOf g b.id ∈ stageLeaders g :=
  (stageLeaders_perm g).mem_iff.2 (mem_leaders.2 ⟨b, hb, hs, rfl⟩)

/-- The stage that a leader has in the plan.  Its number is its place. -/
def stageAt (g : FlowGraph) (leader : BlockId) : Stage :=
  stageOfLeader g leader ((stageLeaders g).idxOf leader + 1)

theorem stages_eq_map (g : FlowGraph) : (plan g).1.stages = (stageLeaders g).map (stageAt g) := by
  rw [stages_plan]
  refine List.ext_getElem (by simp) fun i hi _ => ?_
  have hlt : i < (stageLeaders g).length := by simpa using hi
  rw [List.getElem_map, List.getElem_map, List.getElem_zipIdx, stageAt,
    (stageLeaders_nodup g).idxOf_getElem i hlt, Nat.add_comm]

theorem mem_stages {s : Stage} (hs : s ∈ (plan g).1.stages) :
    ∃ leader ∈ stageLeaders g, s = stageOfLeader g leader ((stageLeaders g).idxOf leader + 1) := by
  rw [stages_eq_map] at hs
  obtain ⟨leader, hl, rfl⟩ := List.mem_map.1 hs
  exact ⟨leader, hl, rfl⟩

theorem stage_mem (hb : b ∈ blocksOf g) (hs : b.isStaged = true) :
    stageOfLeader g (leaderOf g b.id) ((stageLeaders g).idxOf (leaderOf g b.id) + 1)
      ∈ (plan g).1.stages := by
  rw [stages_eq_map]
  exact List.mem_map_of_mem (leaderOf_mem_stageLeaders hb hs)

/-- The members of a stage that are of a kind, if the kind is one that stages have. -/
theorem mem_members {kind : Block → Bool} (hkind : ∀ b, kind b = true → b.isStaged = true)
    (hb : b ∈ blocksOf g) {leader : BlockId} :
    b.id ∈ (((blocksOf g).filter fun b => b.isStaged && leaderOf g b.id == leader).filter
        kind).map (·.id) ↔ kind b = true ∧ leaderOf g b.id = leader := by
  simp only [List.mem_map, List.mem_filter, Bool.and_eq_true, beq_iff_eq]
  constructor
  · intro h
    obtain ⟨b', ⟨⟨hb', -, hl⟩, hk⟩, hid⟩ := h
    obtain rfl := eq_of_id_eq_of_mem_blocksOf hb' hb hid
    exact ⟨hk, hl⟩
  · intro h
    obtain ⟨hk, hl⟩ := h
    exact ⟨b, ⟨⟨hb, hkind b hk, hl⟩, hk⟩, rfl⟩

theorem mem_mapBlocks (hb : b ∈ blocksOf g) {leader n : Nat} :
    b.id ∈ (stageOfLeader g leader n).mapBlocks ↔ b.isMap = true ∧ leaderOf g b.id = leader :=
  mem_members (fun _ => isStaged_of_isMap) hb

theorem mem_reduceBlocks (hb : b ∈ blocksOf g) {leader n : Nat} :
    b.id ∈ (stageOfLeader g leader n).reduceBlocks ↔
      b.isReduce = true ∧ leaderOf g b.id = leader :=
  mem_members (fun _ => isStaged_of_isReduce) hb

theorem mem_blocks (hb : b ∈ blocksOf g) {leader n : Nat} :
    b.id ∈ (stageOfLeader g leader n).blocks ↔ b.isStaged = true ∧ leaderOf g b.id = leader := by
  rw [Stage.blocks, List.mem_append, mem_mapBlocks hb, mem_reduceBlocks hb, ← or_and_right,
    Block.isStaged, Bool.or_eq_true]

/-! ## A schedule from the order -/

/-- The place of the stage of a block. -/
def stagePlace (g : FlowGraph) (b : BlockId) : Nat := (stageLeaders g).idxOf (leaderOf g b)

/-- The places of the stages are a schedule if links that are no shuffles lead to greater ones. -/
theorem isSchedule_stagePlace (h : g.Coherent)
    (hwaits : ∀ l ∈ linksOf g, l.source.isStaged = true → l.target.isStaged = true →
      l.isShuffle = false → stagePlace g l.source.id < stagePlace g l.target.id) :
    (plan g).1.IsSchedule (stagePlace g) where
  shuffles := by
    intro c hc u d hj hu hd
    rw [stagePlace, stagePlace, leaderOf_eq_of_mustShare h (.shuffle hc hj hu hd)]
  readers := by
    intro u d hu hd hreads hsame
    rw [stagePlace, stagePlace, leaderOf_eq_of_mustShare h (.readers hu hd hreads hsame)]
  waits := by
    intro c hc u d hj hu hd hnot
    obtain ⟨l, hl, rfl, rfl, rfl⟩ := exists_link h hc hj
    have hs := source_mem_blocksOf hl
    have ht := target_mem_blocksOf hl
    rw [isMap_plan hs, isReduce_plan hs] at hu
    rw [isMap_plan ht, isReduce_plan ht] at hd
    rw [isMap_plan hs, isReduce_plan ht, ← Bool.and_eq_true] at hnot
    exact hwaits l hl hu hd (Bool.not_eq_true _ ▸ hnot)

theorem isSchedule_of_inOrder (h : g.Coherent) (ho : (plan g).1.InOrder) :
    (plan g).1.IsSchedule (stagePlace g) := by
  refine isSchedule_stagePlace h fun l hl hu hd hnot => ?_
  have hs := source_mem_blocksOf hl
  have ht := target_mem_blocksOf hl
  rcases ho _ (List.mem_map_of_mem hl) _ _ (joins_of_mem_linksOf h hl) _ (stage_mem hs hu) _
    (stage_mem ht hd) ((mem_blocks hs).2 ⟨hu, rfl⟩) ((mem_blocks ht).2 ⟨hd, rfl⟩) with
    hlt | ⟨heq, hmap, hreduce⟩
  · exact Nat.lt_of_succ_lt_succ hlt
  · rw [heq] at hreduce
    rw [Link.isShuffle, ((mem_mapBlocks hs).1 hmap).1, ((mem_reduceBlocks ht).1 hreduce).1] at hnot
    cases hnot

/-! ## The order from a schedule -/

theorem time_eq_of_joins (h : g.Coherent) (ht : (plan g).1.IsSchedule time) :
    ∀ pair ∈ joins (blocksOf g) (linksOf g), time pair.1 = time pair.2 := by
  intro pair hp
  cases mustShare_of_mem_joins h hp with
  | shuffle hc hj hu hd => exact ht.shuffles _ hc _ _ hj hu hd
  | readers hu hd hreads hsame => exact ht.readers _ _ hu hd hreads hsame

/-- All blocks of a stage have the same time. -/
theorem time_leaderOf (h : g.Coherent) (ht : (plan g).1.IsSchedule time) (b : BlockId) :
    time (leaderOf g b) = time b := (leaderOf_spec g).2 time (time_eq_of_joins h ht) b

/-- A link that is no shuffle leads to another stage, at a later time. -/
theorem time_lt_of_link (h : g.Coherent) (ht : (plan g).1.IsSchedule time) (hl : l ∈ linksOf g)
    (hs : l.source.isStaged = true) (hd : l.target.isStaged = true) (hn : l.isShuffle = false) :
    time (leaderOf g l.source.id) < time (leaderOf g l.target.id) := by
  rw [time_leaderOf h ht, time_leaderOf h ht]
  have hsource := source_mem_blocksOf hl
  have htarget := target_mem_blocksOf hl
  refine ht.waits l.connection (List.mem_map_of_mem hl) _ _ (joins_of_mem_linksOf h hl) ?_ ?_ ?_
  · rwa [isMap_plan hsource, isReduce_plan hsource]
  · rwa [isMap_plan htarget, isReduce_plan htarget]
  · rw [isMap_plan hsource, isReduce_plan htarget, ← Bool.and_eq_true]
    show ¬ l.isShuffle = true
    rw [hn]
    exact Bool.false_ne_true

theorem mem_needsOf {leader x : BlockId} :
    x ∈ needsOf g leader ↔
      ∃ l ∈ linksOf g, l.source.isStaged = true ∧ l.target.isStaged = true ∧
        leaderOf g l.target.id = leader ∧ leaderOf g l.source.id = x ∧ x ≠ leader := by
  unfold needsOf needs stagedLinks leaderOf
  simp only [List.mem_filter, List.mem_map, Bool.and_eq_true, beq_iff_eq, decide_eq_true_eq]
  constructor
  · intro h
    obtain ⟨⟨l, ⟨⟨hl, hs, hd⟩, ht⟩, hx⟩, hne⟩ := h
    exact ⟨l, hl, hs, hd, ht, hx, hne⟩
  · intro h
    obtain ⟨l, hl, hs, hd, ht, hx, hne⟩ := h
    exact ⟨⟨l, ⟨⟨hl, hs, hd⟩, ht⟩, hx⟩, hne⟩

theorem not_mem_needsOf_self (g : FlowGraph) (x : BlockId) : x ∉ needsOf g x := by
  intro hself
  obtain ⟨-, -, -, -, -, -, hne⟩ := mem_needsOf.1 hself
  exact hne rfl

/-- A stage alone is in order. -/
theorem leaderOrder_of_singleton {leader : BlockId}
    (h : leaders (blocksOf g) (classes (blocksOf g) (linksOf g)) = [leader]) :
    leaderOrder g = ([leader], []) := by
  rw [leaderOrder, h]
  exact Precedence.order_singleton (not_mem_needsOf_self g leader)

theorem stages_of_singleton (leader : BlockId)
    (h : leaders (blocksOf g) (classes (blocksOf g) (linksOf g)) = [leader]) :
    (plan g).1.stages = [stageOfLeader g leader 1] := by
  rw [stages_plan, stageLeaders, leaderOrder_of_singleton h]
  rfl

theorem left_eq_nil (h : g.Coherent) (ht : (plan g).1.IsSchedule time) :
    (leaderOrder g).2 = [] := by
  refine Precedence.order_left_eq_nil time fun x _ y hy _ => ?_
  obtain ⟨l, hl, hs, hd, rfl, rfl, hne⟩ := mem_needsOf.1 hy
  refine time_lt_of_link h ht hl hs hd ?_
  rw [← Bool.not_eq_true]
  exact fun hshuffle => hne (leaderOf_eq_of_shuffle hl hshuffle)

/-- A stage comes after those that it reads from. -/
theorem stageLeaders_pairwise (hleft : (leaderOrder g).2 = []) :
    (stageLeaders g).Pairwise fun x y => y ∉ needsOf g x := by
  rw [stageLeaders, hleft, List.append_nil]
  exact Precedence.order_pairwise _ _

/-- A link between stages leads to the later one. -/
theorem stagePlace_lt_of_link (hleft : (leaderOrder g).2 = []) (hl : l ∈ linksOf g)
    (hs : l.source.isStaged = true) (hd : l.target.isStaged = true)
    (hne : leaderOf g l.source.id ≠ leaderOf g l.target.id) :
    stagePlace g l.source.id < stagePlace g l.target.id :=
  Precedence.idxOf_lt_of_mem_needs (stageLeaders_pairwise hleft)
    (leaderOf_mem_stageLeaders (target_mem_blocksOf hl) hd)
    (leaderOf_mem_stageLeaders (source_mem_blocksOf hl) hs)
    (mem_needsOf.2 ⟨l, hl, hs, hd, rfl, rfl, hne⟩) hne

theorem inOrder_of_isSchedule (h : g.Coherent) (ht : (plan g).1.IsSchedule time) :
    (plan g).1.InOrder := by
  intro c hc u d hj s hs s' hs' hu hd
  obtain ⟨l, hl, rfl, rfl, rfl⟩ := exists_link h hc hj
  obtain ⟨leader, -, rfl⟩ := mem_stages hs
  obtain ⟨leader', -, rfl⟩ := mem_stages hs'
  have hsource := source_mem_blocksOf hl
  have htarget := target_mem_blocksOf hl
  obtain ⟨hsourceStaged, rfl⟩ := (mem_blocks hsource).1 hu
  obtain ⟨htargetStaged, rfl⟩ := (mem_blocks htarget).1 hd
  by_cases hsame : leaderOf g l.source.id = leaderOf g l.target.id
  · right
    have hshuffle : l.isShuffle = true := by
      rw [← Bool.not_eq_false]
      intro hn
      have hlt := time_lt_of_link h ht hl hsourceStaged htargetStaged hn
      rw [hsame] at hlt
      exact Nat.lt_irrefl _ hlt
    rw [Link.isShuffle, Bool.and_eq_true] at hshuffle
    rw [hsame]
    exact ⟨rfl, (mem_mapBlocks hsource).2 ⟨hshuffle.1, hsame⟩,
      (mem_reduceBlocks htarget).2 ⟨hshuffle.2, rfl⟩⟩
  · left
    exact Nat.succ_lt_succ
      (stagePlace_lt_of_link (left_eq_nil h ht) hl hsourceStaged htargetStaged hsame)

/-! ## What is reported and checked -/

theorem defects_plan (g : FlowGraph) : (plan g).2 = (routes g (blocksOf g)).flatMap (·.defects g)
    ++ selfDefects g (classes (blocksOf g) (linksOf g)) (linksOf g)
    ++ cycleDefects g (blocksOf g) (leaderOrder g).2 := rfl

/-- What does not concern the order of stages is found at a route. -/
theorem exists_route_of_mem_defects {d : Defect} (hd : d ∈ (plan g).2)
    (ho : d.isOrdering = false) : ∃ r ∈ routes g (blocksOf g), d ∈ r.defects g := by
  rw [defects_plan, List.mem_append, List.mem_append] at hd
  rcases hd with (hroute | hself) | hcycle
  · exact List.mem_flatMap.1 hroute
  · obtain ⟨l, -, rfl⟩ := List.mem_map.1 hself
    cases ho
  · unfold cycleDefects at hcycle
    split at hcycle
    · cases hcycle
    · obtain ⟨e, -, rfl⟩ := List.mem_map.1 hcycle
      cases ho

theorem isOrdering_of_mem_defects {r : Route} {d : Defect} (hd : d ∈ r.defects g) :
    d.isOrdering = false := by
  unfold Route.defects at hd
  split at hd
  · unfold Link.defects at hd
    dsimp only at hd
    repeat' split at hd
    all_goals first
      | exact absurd hd List.not_mem_nil
      | exact List.mem_singleton.1 hd ▸ rfl
  · exact List.mem_singleton.1 hd ▸ rfl

theorem selfDefects_eq_nil (h : g.Coherent) (ht : (plan g).1.IsSchedule time) :
    selfDefects g (classes (blocksOf g) (linksOf g)) (linksOf g) = [] := by
  rw [selfDefects, List.map_eq_nil_iff, List.filter_eq_nil_iff]
  intro l hl hself
  unfold stagedLinks at hl
  simp only [List.mem_filter, Bool.and_eq_true] at hl
  simp only [Bool.and_eq_true, beq_iff_eq, Bool.not_eq_true'] at hself
  obtain ⟨hl, hs, hd⟩ := hl
  have hlt := time_lt_of_link h ht hl hs hd hself.2
  unfold leaderOf at hlt
  rw [hself.1] at hlt
  exact Nat.lt_irrefl _ hlt

theorem isOrdering_eq_false_of_isSchedule (h : g.Coherent) (ht : (plan g).1.IsSchedule time) :
    ∀ d ∈ (plan g).2, d.isOrdering = false := by
  rw [defects_plan, selfDefects_eq_nil h ht, left_eq_nil h ht]
  intro d hd
  rw [List.append_nil] at hd
  rcases List.mem_append.1 hd with hd | hd
  · obtain ⟨r, -, hd⟩ := List.mem_flatMap.1 hd
    exact isOrdering_of_mem_defects hd
  · cases hd

/-- The place of a stage is its number. -/
theorem exists_stage_of_stageOf? {u : BlockId} {i : Nat} (hi : (plan g).1.stageOf? u = some i) :
    ∃ s ∈ (plan g).1.stages, u ∈ s.blocks ∧ s.number = i + 1 := by
  obtain ⟨hlt, hu, -⟩ := List.findIdx?_eq_some_iff_getElem.1 hi
  refine ⟨_, List.getElem_mem hlt, List.contains_iff_mem.1 hu, ?_⟩
  simp only [stages_plan, List.getElem_map, List.getElem_zipIdx]
  exact Nat.add_comm 1 i

/-- The order of the stages is what the certificate checks. -/
theorem isOrdered_of_inOrder (h : g.Coherent) (ho : (plan g).1.InOrder) :
    (plan g).1.isOrdered = true := by
  refine List.all_eq_true.2 fun c hc => ?_
  obtain ⟨l, hl, rfl⟩ := List.mem_map.1 hc
  have hj := joins_of_mem_linksOf h hl
  rw [hj.1, hj.2]
  dsimp only
  split
  case h_2 => rfl
  case h_1 su sd hsu hsd =>
    obtain ⟨s, hs, hus, hnum⟩ := exists_stage_of_stageOf? hsu
    obtain ⟨s', hs', hds, hnum'⟩ := exists_stage_of_stageOf? hsd
    rw [Bool.or_eq_true, Bool.and_eq_true, decide_eq_true_eq, beq_iff_eq]
    rcases ho _ hc _ _ hj s hs s' hs' hus hds with hlt | ⟨rfl, -, hreduce⟩
    · left
      omega
    · right
      obtain ⟨leader, -, rfl⟩ := mem_stages hs
      rw [isReduce_plan (target_mem_blocksOf hl)]
      exact ⟨by omega, ((mem_reduceBlocks (target_mem_blocksOf hl)).1 hreduce).1⟩

/-! ## Normal forms -/

/-- The stages of a normal form are in order, and none of them is reported to wait for itself or in
a cycle, exactly if its blocks have a schedule. -/
theorem normalization_orders_stages_iff (h : g.WellFormed) :
    ((∀ d ∈ (plan g.normalize.1).2, d.isOrdering = false) ∧
      (plan g.normalize.1).1.InOrder ∧ (plan g.normalize.1).1.isOrdered = true) ↔
        ∃ time, (plan g.normalize.1).1.IsSchedule time := by
  have hk := (normalize_wellFormed h).coherent
  constructor
  · intro hordered
    exact ⟨_, isSchedule_of_inOrder hk hordered.2.1⟩
  · intro hschedule
    obtain ⟨time, ht⟩ := hschedule
    have ho := inOrder_of_isSchedule hk ht
    exact ⟨isOrdering_eq_false_of_isSchedule hk ht, ho, isOrdered_of_inOrder hk ho⟩

/-- An operator that shuffles the same records twice, once behind another shuffle. -/
def selfJoin : FlowGraph :=
  let key (name : String) : PortDecl :=
    { PortDecl.plain name "Record" with key := some ⟨["key"], []⟩ }
  let desc (name kind : String) : OperatorDesc := { name, kind, resources := [] }
  assemble
    [.input "in" "Record",
      .operator "m" (desc "m" "update") [.plain "in" "Record"] [.plain "out" "Record"] .none,
      .operator "r1" (desc "r1" "fold") [key "in"] [.plain "out" "Record"] .shuffle,
      .operator "r2" (desc "r2" "cogroup") [key "a", key "b"] [.plain "out" "Record"] .shuffle,
      .output "out" "Record"]
    [(0, 1), (2, 3), (2, 5), (4, 6), (7, 8)]

theorem selfJoin_wellFormed : selfJoin.WellFormed :=
  assemble_wellFormed _ (by simp)

theorem selfJoin_reported : (plan selfJoin.normalize.1).2.any (·.isOrdering) = true := by cbv

set_option maxRecDepth 10000 in
theorem selfJoin_isOrdering : selfJoin.isLegal = true ∧
    selfJoin.normalize.1.normalFormCertificate.allPass = true ∧
      (plan selfJoin.normalize.1).2.any (·.isOrdering) = true :=
  ⟨by decide +kernel, by decide +kernel, selfJoin_reported⟩

theorem selfJoin_no_schedule :
    selfJoin.WellFormed ∧ ¬ ∃ time, (plan selfJoin.normalize.1).1.IsSchedule time := by
  refine ⟨selfJoin_wellFormed, fun hschedule => ?_⟩
  have hquiet := ((normalization_orders_stages_iff selfJoin_wellFormed).2 hschedule).1
  obtain ⟨d, hd, hordering⟩ := List.any_eq_true.1 selfJoin_reported
  rw [hquiet d hd] at hordering
  cases hordering

end StageGraph
end FlowPlan
