import FlowPlan.Proofs.StagePlans

/-!
Which blocks the stages of a plan hold.

A stage is the class of a leader, and leaders are the classes of the joins, so `plan_groups_blocks`
can name the stages without the disjoint sets that the planner finds them by: two blocks are in one
stage exactly if the smallest equivalence that holds between joined blocks relates them.
-/

namespace FlowPlan
namespace StageGraph

open FlowGraph Relation

variable {g : FlowGraph} {b b' : Block} {s : Stage}

/-- Blocks are in one stage exactly if they have the same leader. -/
theorem exists_stage_iff (hb : b ∈ blocksOf g) (hb' : b' ∈ blocksOf g) (hs : b.isStaged = true)
    (hs' : b'.isStaged = true) :
    (∃ s ∈ (plan g).1.stages, b.id ∈ s.blocks ∧ b'.id ∈ s.blocks) ↔
      leaderOf g b.id = leaderOf g b'.id := by
  constructor
  · intro hshared
    obtain ⟨s, hmem, hin, hin'⟩ := hshared
    obtain ⟨leader, -, rfl⟩ := mem_stages hmem
    rw [((mem_blocks hb).1 hin).2, ((mem_blocks hb').1 hin').2]
  · intro heq
    exact ⟨_, stage_mem hb hs, (mem_blocks hb).2 ⟨hs, rfl⟩, (mem_blocks hb').2 ⟨hs', heq.symm⟩⟩

/-- A stage lists its map and its reduce blocks by their numbers, each once. -/
structure IsListed (sg : StageGraph) (s : Stage) : Prop where
  mapsAscend : s.mapBlocks.Pairwise (· < ·)
  reducesAscend : s.reduceBlocks.Pairwise (· < ·)
  maps : ∀ b ∈ s.mapBlocks, sg.isMap b = true
  reduces : ∀ b ∈ s.reduceBlocks, sg.isReduce b = true

/-- The members of a class that are of a kind, as a stage lists them. -/
theorem members_listed (g : FlowGraph) (leader : BlockId) (kind : Block → Bool) :
    (((membersOf g leader).filter kind).map (·.id)).Pairwise (· < ·) ∧
      ∀ i ∈ ((membersOf g leader).filter kind).map (·.id),
        ∃ b ∈ blocksOf g, b.id = i ∧ kind b = true := by
  constructor
  · exact List.pairwise_map.2 (((blocksOf_ascending g).filter _).filter _)
  · intro i hi
    obtain ⟨b, hmem, rfl⟩ := List.mem_map.1 hi
    obtain ⟨hmember, hkind⟩ := List.mem_filter.1 hmem
    exact ⟨b, List.mem_of_mem_filter hmember, rfl, hkind⟩

theorem isListed_of_mem_stages (hs : s ∈ (plan g).1.stages) : (plan g).1.IsListed s := by
  obtain ⟨leader, -, rfl⟩ := mem_stages hs
  obtain ⟨hmaps, hmap⟩ := members_listed g leader (·.isMap)
  obtain ⟨hreduces, hreduce⟩ := members_listed g leader (·.isReduce)
  refine ⟨hmaps, hreduces, fun i hi => ?_, fun i hi => ?_⟩
  · obtain ⟨b, hb, rfl, hk⟩ := hmap i hi
    rw [isMap_plan hb, hk]
  · obtain ⟨b, hb, rfl, hk⟩ := hreduce i hi
    rw [isReduce_plan hb, hk]

/-- Two map or reduce blocks are in one stage exactly if a chain of joins connects them, and every
stage lists its blocks by number. -/
theorem plan_groups_blocks (h : g.WellFormed) :
    (∀ b ∈ (plan g).1.blocks, ∀ b' ∈ (plan g).1.blocks, b.isStaged = true → b'.isStaged = true →
      ((∃ s ∈ (plan g).1.stages, b.id ∈ s.blocks ∧ b'.id ∈ s.blocks) ↔
        EqvGen (plan g).1.MustShare b.id b'.id)) ∧
      ∀ s ∈ (plan g).1.stages, (plan g).1.IsListed s := by
  refine ⟨fun b hb b' hb' hs hs' => ?_, fun s hs => isListed_of_mem_stages hs⟩
  rw [exists_stage_iff hb hb' hs hs', leaderOf_eq_iff h.coherent]

/-- Two operators that read the same data, each shuffled into one of its own, beside an operator
that reads something else. -/
def twins : FlowGraph :=
  let key : PortDecl := { PortDecl.plain "in" "Record" with key := some ⟨["key"], []⟩ }
  let plain : PortDecl := .plain "in" "Record"
  let work (name kind : String) (input : PortDecl) (boundary : Boundary) : ElementDecl :=
    .operator name { name, kind, resources := [] } [input] [.plain "out" "Record"] boundary
  assemble
    [.input "in" "Record", work "r1" "fold" key .shuffle, work "m1" "update" plain .none,
      work "r2" "fold" key .shuffle, work "m2" "update" plain .none, .input "other" "Record",
      work "n" "update" plain .none, .output "out" "Record", .output "rest" "Record"]
    [(0, 3), (0, 7), (4, 1), (8, 5), (2, 12), (9, 10), (11, 13), (6, 12)]

/-- The two shuffles are joined by way of what they read; the third operator is apart. -/
theorem twins_grouped : twins.WellFormed ∧ EqvGen (plan twins).1.MustShare 1 3 ∧
    (¬ EqvGen (plan twins).1.MustShare 1 5) ∧
      ∀ s ∈ (plan twins).1.stages, (plan twins).1.IsListed s := by
  have hwf : twins.WellFormed := assemble_wellFormed _ (by simp)
  obtain ⟨hgroups, hlisted⟩ := plan_groups_blocks hwf
  have hblocks : (blocksOf twins)[1]? = some ⟨1, .reduce, [1], [1], [2]⟩ ∧
      (blocksOf twins)[3]? = some ⟨3, .reduce, [3], [5], [6]⟩ ∧
      (blocksOf twins)[5]? = some ⟨5, .map, [6], [10], [11]⟩ := by
    decide +kernel
  have hfirst := List.mem_of_getElem? hblocks.1
  have hsecond := List.mem_of_getElem? hblocks.2.1
  have hother := List.mem_of_getElem? hblocks.2.2
  have hleaders : leaderOf twins 1 = leaderOf twins 3 ∧ leaderOf twins 1 ≠ leaderOf twins 5 := by
    cbv
  refine ⟨hwf, ?_, fun hchain => ?_, hlisted⟩
  · exact (hgroups _ hfirst _ hsecond rfl rfl).1
      ((exists_stage_iff hfirst hsecond rfl rfl).2 hleaders.1)
  · exact hleaders.2 ((exists_stage_iff hfirst hother rfl rfl).1
      ((hgroups _ hfirst _ hother rfl rfl).2 hchain))

end StageGraph
end FlowPlan
