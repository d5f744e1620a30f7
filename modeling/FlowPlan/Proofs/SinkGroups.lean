import FlowPlan.Proofs.BlockConnections
import FlowPlan.Proofs.Sinks

/-!
Which outputs of a stage are written together.

A sink is a set of receivers with all outputs that go to exactly these.  `plan_groups_outputs` says
so for the models of the stages of a plan: the outputs in sinks are those that a unit produces and
something beyond the stage's own reduce side reads, each is in one sink, and two are in the same one
if the same inputs read them.  That a block output has one place in its stage is what lets the sinks
be named in the order in which they are met.
-/

namespace FlowPlan

/-! ## Groups in the order of their first items -/

section Grouping

variable {α κ : Type} [DecidableEq κ] {key : α → κ}

/-- The first item opens a group, and items of other keys are grouped as if it were not there. -/
theorem groupByKey_cons (x : α) (xs : List α) :
    groupByKey key (x :: xs) = (key x, x :: xs.filter (key · = key x)) ::
      groupByKey key (xs.filter (key · ≠ key x)) := by
  have hkeys : ((x :: xs).map key).eraseDups
      = key x :: ((xs.filter (key · ≠ key x)).map key).eraseDups := by
    rw [List.map_cons, List.eraseDups_cons, List.filter_map]
    refine congrArg (fun ys => key x :: (List.map key ys).eraseDups)
      (List.filter_congr fun y _ => ?_)
    simp [BEq.beq]
  have hown : (x :: xs).filter (key · = key x) = x :: xs.filter (key · = key x) :=
    List.filter_cons_of_pos (by simp)
  rw [groupByKey, hkeys, List.map_cons, hown, groupByKey]
  refine congrArg (_ :: ·) (List.map_congr_left fun k hk => ?_)
  obtain ⟨y, hy, rfl⟩ := List.mem_map.1 (List.mem_eraseDups.1 hk)
  have hne : key y ≠ key x := by simpa using (List.mem_filter.1 hy).2
  rw [List.filter_cons_of_neg (by simpa using hne.symm), List.filter_filter]
  refine congrArg (Prod.mk _) (List.filter_congr fun z _ => ?_)
  by_cases hz : key z = key y
  · simp [hz, hne]
  · simp [hz]

/-- Every item is in one group, and once. -/
theorem flatMap_groupByKey_perm (xs : List α) : ((groupByKey key xs).flatMap (·.2)).Perm xs := by
  match xs with
  | [] => exact .nil
  | x :: xs =>
    rw [groupByKey_cons, List.flatMap_cons]
    have hrest := flatMap_groupByKey_perm (xs.filter (key · ≠ key x))
    have hsplit := List.filter_append_perm (fun y => decide (key y = key x)) xs
    simp only [ne_eq, decide_not] at hrest ⊢
    exact ((hrest.append_left _).trans hsplit).cons x
termination_by xs.length
decreasing_by exact Nat.lt_succ_of_le (List.length_filter_le _ _)

/-- The groups come in the order in which their first items are met. -/
theorem firsts_groupByKey_sublist (xs : List α) :
    ((groupByKey key xs).map (·.2.head?)).Sublist (xs.map some) := by
  match xs with
  | [] => exact .slnil
  | x :: xs =>
    rw [groupByKey_cons, List.map_cons, List.map_cons]
    have hrest := firsts_groupByKey_sublist (xs.filter (key · ≠ key x))
    exact (hrest.trans (List.filter_sublist.map some)).cons_cons (some x)
termination_by xs.length
decreasing_by exact Nat.lt_succ_of_le (List.length_filter_le _ _)

end Grouping

/-! ## What is in the sinks of a stage -/

namespace StageModel

/-- The port belongs to the element that a fragment run by a unit ends with. -/
def Produces (m : StageModel) (g : FlowGraph) (u : PortId) : Prop :=
  ∃ f, m.Runs f ∧ ∃ x, f.factors.getLast? = some x ∧ g.ownerId? u = some x.element

end StageModel

namespace StageGraph

/-- The output feeds the block input, which is none of the stage's own reduce side. -/
def FeedsBeyond (sg : StageGraph) (stage : Stage) (u d : PortId) : Prop :=
  ⟨u, d⟩ ∈ sg.connections ∧ ∀ b ∈ stage.reduceBlocks, d ∉ sg.inputsOf b

/-- The block outputs of a stage, those of its map blocks first. -/
def stageOutputs (sg : StageGraph) (stage : Stage) : List PortId :=
  stage.blocks.flatMap sg.outputsOf

/-- The sinks of a model gather the outputs of a stage by what they feed. -/
structure GroupsOutputs (sg : StageGraph) (stage : Stage) (m : StageModel) : Prop where
  /-- No port is in two sinks, or twice in one. -/
  once : (m.sinks.flatMap (·.outputs)).Nodup
  listed : ∀ u, (∃ s ∈ m.sinks, u ∈ s.outputs) ↔
    (∃ b ∈ stage.blocks, u ∈ sg.outputsOf b) ∧ m.Produces sg.flow u ∧
      ∃ d, sg.FeedsBeyond stage u d
  shared : ∀ u v, (∃ s ∈ m.sinks, u ∈ s.outputs) → (∃ s ∈ m.sinks, v ∈ s.outputs) →
    ((∃ s ∈ m.sinks, u ∈ s.outputs ∧ v ∈ s.outputs) ↔
      ∀ d, sg.FeedsBeyond stage u d ↔ sg.FeedsBeyond stage v d)
  receives : ∀ s ∈ m.sinks, s.receivers ≠ [] ∧ s.receivers.Pairwise (· < ·) ∧
    ∀ u ∈ s.outputs, ∀ d, d ∈ s.receivers ↔ sg.FeedsBeyond stage u d
  names : m.sinks.map (·.name) = (List.range' 1 m.sinks.length).map fun i => s!"result{i}"
  /-- All outputs of the stage differ, so their order is the order of their places. -/
  distinct : (sg.stageOutputs stage).Nodup
  within : ∀ s ∈ m.sinks, s.outputs.Sublist (sg.stageOutputs stage)
  firsts : (m.sinks.map (·.outputs.head?)).Sublist ((sg.stageOutputs stage).map some)

end StageGraph

namespace StageModel

variable {sg : StageGraph} {stage : Stage} {fs : Fragments} {units : List (List FragmentId)}
  {u v : PortId}

theorem map_outputs_sinksOf : (sinksOf sg stage fs units).map (·.outputs)
    = (groupByKey (consumers sg stage) (producedOutputs sg stage fs units)).map (·.2) := by
  conv => rhs; rw [← List.zipIdx_map_fst 1 (groupByKey _ _), List.map_map]
  rw [sinksOf, List.map_map]
  rfl

theorem mem_sinksOf {s : Sink} (hs : s ∈ sinksOf sg stage fs units) :
    (s.receivers, s.outputs)
      ∈ groupByKey (consumers sg stage) (producedOutputs sg stage fs units) := by
  obtain ⟨⟨group, i⟩, hgroup, rfl⟩ := List.mem_map.1 hs
  exact List.fst_mem_of_mem_zipIdx hgroup

theorem flatMap_sinksOf_perm : ((sinksOf sg stage fs units).flatMap (·.outputs)).Perm
    (producedOutputs sg stage fs units) := by
  rw [List.flatMap_def, map_outputs_sinksOf, ← List.flatMap_def]
  exact flatMap_groupByKey_perm _

/-- The outputs of a sink are those with its receivers. -/
theorem sink_spec {s : Sink} (hs : s ∈ sinksOf sg stage fs units) :
    (∃ u ∈ producedOutputs sg stage fs units, consumers sg stage u = s.receivers) ∧
      s.outputs
        = (producedOutputs sg stage fs units).filter (consumers sg stage · = s.receivers) :=
  mem_groupByKey.1 (mem_sinksOf hs)

theorem exists_sink_iff (hu : u ∈ producedOutputs sg stage fs units)
    (hv : v ∈ producedOutputs sg stage fs units) :
    (∃ s ∈ sinksOf sg stage fs units, u ∈ s.outputs ∧ v ∈ s.outputs) ↔
      consumers sg stage u = consumers sg stage v := by
  constructor
  · intro hshared
    obtain ⟨s, hs, hus, hvs⟩ := hshared
    rw [(sink_spec hs).2, List.mem_filter, decide_eq_true_iff] at hus hvs
    rw [hus.2, hvs.2]
  · intro heq
    obtain ⟨s, hfilter, hreceivers⟩ := filter_sinksOf hu
    have hs : s ∈ sinksOf sg stage fs units :=
      List.mem_of_mem_filter (hfilter ▸ List.mem_singleton_self s)
    refine ⟨s, hs, ?_, ?_⟩
    · rw [(sink_spec hs).2, List.mem_filter, decide_eq_true_iff]
      exact ⟨hu, hreceivers.symm⟩
    · rw [(sink_spec hs).2, List.mem_filter, decide_eq_true_iff]
      exact ⟨hv, heq.symm.trans hreceivers.symm⟩

theorem names_sinksOf : (sinksOf sg stage fs units).map (·.name)
    = (List.range' 1 (sinksOf sg stage fs units).length).map fun i => s!"result{i}" := by
  rw [sinksOf, List.map_map, List.length_map, List.length_zipIdx, ← List.zipIdx_map_snd,
    List.map_map]
  rfl

theorem producedOutputs_sublist :
    (producedOutputs sg stage fs units).Sublist (sg.stageOutputs stage) := List.filter_sublist

theorem exists_sink_of_output_iff : (∃ s ∈ sinksOf sg stage fs units, u ∈ s.outputs) ↔
    u ∈ producedOutputs sg stage fs units := by
  rw [← flatMap_sinksOf_perm.mem_iff, List.mem_flatMap]

theorem outputs_sublist_of_mem_sinksOf {s : Sink} (hs : s ∈ sinksOf sg stage fs units) :
    s.outputs.Sublist (sg.stageOutputs stage) := by
  rw [(sink_spec hs).2]
  exact List.filter_sublist.trans producedOutputs_sublist

theorem firsts_sinksOf_sublist : ((sinksOf sg stage fs units).map (·.outputs.head?)).Sublist
    ((sg.stageOutputs stage).map some) := by
  have hfirsts : ((groupByKey (consumers sg stage) (producedOutputs sg stage fs units)).map
      (·.2.head?)).Sublist ((producedOutputs sg stage fs units).map some) :=
    firsts_groupByKey_sublist _
  have houtputs : (sinksOf sg stage fs units).map (·.outputs.head?)
      = (groupByKey (consumers sg stage) (producedOutputs sg stage fs units)).map
        (·.2.head?) := by
    have hmap := congrArg (List.map List.head?) (@map_outputs_sinksOf sg stage fs units)
    rwa [List.map_map, List.map_map] at hmap
  rw [houtputs]
  exact hfirsts.trans (producedOutputs_sublist.map some)

theorem consumers_eq_iff : consumers sg stage u = consumers sg stage v ↔
    ∀ d, sg.FeedsBeyond stage u d ↔ sg.FeedsBeyond stage v d := by
  constructor
  · intro heq d
    rw [StageGraph.FeedsBeyond, StageGraph.FeedsBeyond, ← mem_consumers, heq, mem_consumers]
  · intro hsame
    refine ascending_congr fun d => ?_
    have hreceives : d ∈ consumers sg stage u ↔ d ∈ consumers sg stage v :=
      mem_consumers.trans ((hsame d).trans mem_consumers.symm)
    rwa [consumers, consumers, mem_ascending, mem_ascending] at hreceives

theorem receivers_of_mem_sinksOf {s : Sink} (hs : s ∈ sinksOf sg stage fs units) :
    s.receivers ≠ [] ∧ s.receivers.Pairwise (· < ·) ∧
      ∀ u ∈ s.outputs, ∀ d, d ∈ s.receivers ↔ sg.FeedsBeyond stage u d := by
  obtain ⟨⟨u, hu, hreceivers⟩, houtputs⟩ := sink_spec hs
  refine ⟨?_, ?_, fun v hv d => ?_⟩
  · rw [← hreceivers]
    exact (mem_producedOutputs.1 hu).2.2
  · rw [← hreceivers]
    exact ascending_pairwise _
  · rw [houtputs, List.mem_filter, decide_eq_true_iff] at hv
    rw [← hv.2]
    exact mem_consumers

end StageModel

namespace StageGraph

open FlowGraph Fragmentation

variable {g : FlowGraph} {stage : Stage}

theorem stageOutputs_eq (g : FlowGraph) (stage : Stage) :
    (plan g).1.stageOutputs stage = (blocksIn g stage).flatMap (·.outputs) := by
  rw [stageOutputs, blocksIn]
  induction stage.blocks with
  | nil => rfl
  | cons i ids ih =>
    rw [List.flatMap_cons, ih, outputsOf]
    cases hb : (plan g).1.block? i with
    | none => rw [List.filterMap_cons_none hb]; rfl
    | some b => rw [List.filterMap_cons_some hb, List.flatMap_cons]; rfl

theorem stageOutputs_nodup (h : g.Coherent) (hstage : stage ∈ (plan g).1.stages) :
    ((plan g).1.stageOutputs stage).Nodup := by
  rw [stageOutputs_eq]
  refine List.nodup_flatMap.2 ⟨fun b hb => outputs_nodup h (mem_blocksIn.1 hb).1, ?_⟩
  refine (blocksIn_nodup hstage).pairwise_of_forall_ne fun b hb b' hb' hne u hu hu' => hne ?_
  exact eq_of_mem_ports h (mem_blocksIn.1 hb).1 (mem_blocksIn.1 hb').1
    (List.mem_append_right _ hu) (List.mem_append_right _ hu')

/-- A block output is produced if it is among the outputs of what a unit runs. -/
theorem produces_iff (h : g.Coherent) (hstage : stage ∈ (plan g).1.stages)
    (shuffle : Option ShuffleModel) (processors : ProcessorRegistry) {u : PortId} {b : Block}
    (hb : b ∈ blocksOf g) (hu : u ∈ b.outputs) :
    (StageModel.ofStage (plan g).1 stage shuffle processors).Produces g u ↔
      ∃ i ∈ (StageModel.unitsOf (plan g).1 stage
          (StageModel.fragmentsOf (plan g).1 stage processors)).flatten,
        u ∈ (StageModel.fragmentsOf (plan g).1 stage processors).outputsOf i := by
  have hd := divided_fragmentsOf h hstage processors
  have hbs := areBlocks_blocksIn g stage
  constructor
  · intro hproduces
    obtain ⟨f, hrun, x, hlast, howner⟩ := hproduces
    obtain ⟨hf, hi⟩ := StageModel.runs_ofStage.1 hrun
    obtain ⟨-, -, -, -, -, y, hy, hend, hout⟩ := hd.exists_last h hbs hf
    obtain ⟨z, hz, -, huz⟩ := exists_of_mem_outputs h hb hu
    rw [Fragment.elements, List.getLast?_map, hlast, Option.map_some, Option.some_inj] at hend
    rw [h.ownerId?_of_output hz huz, hend, Option.some_inj] at howner
    obtain rfl := h.eq_of_id_eq hz hy howner
    refine ⟨f.id, hi, ?_⟩
    rwa [hd.outputsOf_id hf, hout]
  · intro hunit
    obtain ⟨i, hi, hui⟩ := hunit
    obtain ⟨f, hf, rfl, huf⟩ := hd.exists_of_mem_outputsOf hui
    obtain ⟨-, -, -, -, -, y, hy, hend, hout⟩ := hd.exists_last h hbs hf
    rw [Fragment.elements, List.getLast?_map, Option.map_eq_some_iff] at hend
    obtain ⟨x, hlast, hid⟩ := hend
    refine ⟨f, StageModel.runs_ofStage.2 ⟨hf, hi⟩, x, hlast, ?_⟩
    rw [hid]
    exact h.ownerId?_of_output hy (hout ▸ huf)

theorem listed_iff (h : g.Coherent) (hstage : stage ∈ (plan g).1.stages)
    (shuffle : Option ShuffleModel) (processors : ProcessorRegistry) (u : PortId) :
    u ∈ StageModel.producedOutputs (plan g).1 stage
        (StageModel.fragmentsOf (plan g).1 stage processors)
        (StageModel.unitsOf (plan g).1 stage
          (StageModel.fragmentsOf (plan g).1 stage processors)) ↔
      (∃ b ∈ stage.blocks, u ∈ (plan g).1.outputsOf b) ∧
        (StageModel.ofStage (plan g).1 stage shuffle processors).Produces g u ∧
        ∃ d, (plan g).1.FeedsBeyond stage u d := by
  rw [StageModel.mem_producedOutputs]
  refine and_congr_right fun hblock => and_congr ?_ ?_
  · obtain ⟨i, -, hu⟩ := hblock
    obtain ⟨b, hb, -, hub⟩ := mem_outputsOf.1 hu
    exact (produces_iff h hstage shuffle processors hb hub).symm
  · constructor
    · intro hne
      obtain ⟨d, hd⟩ := List.exists_mem_of_ne_nil _ hne
      exact ⟨d, StageModel.mem_consumers.1 hd⟩
    · intro hfeeds
      obtain ⟨d, hd⟩ := hfeeds
      exact List.ne_nil_of_mem (StageModel.mem_consumers.2 hd)

/-- The sinks of a stage of a plan hold its outputs that units produce and that feed anything beyond
the stage's own reduce side, one sink for each set of inputs that are fed. -/
theorem plan_groups_outputs (h : g.WellFormed) (hstage : stage ∈ (plan g).1.stages)
    {shuffle : Option ShuffleModel} {processors : ProcessorRegistry} {m : StageModel}
    (hm : (analyzeStage (plan g).1 stage shuffle processors).1 = some m) :
    (plan g).1.GroupsOutputs stage m := by
  obtain rfl := Compilation.eq_ofStage_of_analyzeStage hm
  have hdistinct := stageOutputs_nodup h.coherent hstage
  have hlisted := listed_iff h.coherent hstage shuffle processors
  refine
    { once := StageModel.flatMap_sinksOf_perm.nodup_iff.2
        (hdistinct.sublist StageModel.producedOutputs_sublist)
      listed := fun u => StageModel.exists_sink_of_output_iff.trans (hlisted u)
      shared := fun u v hu hv => ?_
      receives := fun s hs => StageModel.receivers_of_mem_sinksOf hs
      names := StageModel.names_sinksOf
      distinct := hdistinct
      within := fun s hs => StageModel.outputs_sublist_of_mem_sinksOf hs
      firsts := StageModel.firsts_sinksOf_sublist }
  exact (StageModel.exists_sink_iff (StageModel.exists_sink_of_output_iff.1 hu)
    (StageModel.exists_sink_of_output_iff.1 hv)).trans StageModel.consumers_eq_iff

/-- An operator with three outputs.  The first is counted in the same stage and goes where the third
one goes, and the second goes where the counts go. -/
def fanOut : FlowGraph :=
  let plain (name : String) : PortDecl := .plain name "Record"
  let key : PortDecl := { plain "in" with key := some ⟨["key"], []⟩ }
  let work (name : String) (input : PortDecl) (outputs : List PortDecl) (boundary : Boundary) :
      ElementDecl :=
    .operator name { name, kind := "update", resources := [] } [input] outputs boundary
  assemble
    [.input "in" "Record", work "split" (plain "in") [plain "a", plain "b", plain "c"] .none,
      work "count" key [plain "out"] .shuffle, .output "x" "Record", .output "y" "Record"]
    [(0, 1), (2, 7), (2, 5), (3, 8), (4, 7), (6, 8)]

theorem fanOut_stages : (plan fanOut).1.stages = [⟨1, [1], [2]⟩] :=
  (stages_of_singleton 1 (by cbv)).trans (by cbv)

/-- That the first output is counted as well does not keep it from sharing a sink. -/
theorem fanOut_grouped : fanOut.WellFormed ∧ ⟨1, [1], [2]⟩ ∈ (plan fanOut).1.stages ∧
    ∃ m, (analyzeStage (plan fanOut).1 ⟨1, [1], [2]⟩ none Compilation.updateOnly).1 = some m ∧
      m.sinks = [⟨"result1", [2, 4], [7]⟩, ⟨"result2", [3, 6], [8]⟩] ∧
      (plan fanOut).1.GroupsOutputs ⟨1, [1], [2]⟩ m := by
  have hwf : fanOut.WellFormed := assemble_wellFormed _ (by simp)
  have hstage : ⟨1, [1], [2]⟩ ∈ (plan fanOut).1.stages :=
    fanOut_stages ▸ List.mem_singleton_self _
  have hserved :
      StageModel.unserved (plan fanOut).1 ⟨1, [1], [2]⟩ Compilation.updateOnly = [] := by
    cbv
  have hm : (analyzeStage (plan fanOut).1 ⟨1, [1], [2]⟩ none Compilation.updateOnly).1 = _ :=
    congrArg Prod.fst (Compilation.analyzeStage_of_served hserved)
  exact ⟨hwf, hstage, _, hm, by cbv, plan_groups_outputs hwf hstage hm⟩

end StageGraph
end FlowPlan
