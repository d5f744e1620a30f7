import FlowPlan.Proofs.Materialization
import FlowPlan.Proofs.Sinks

/-!
What the units of a stage run, and in which order.

Every place where data enters a map or reduce block of a stage is an input of one unit.  The units
of the map side go by the outputs that their inputs read, and those of the reduce side by the
elements that have the inputs.  A unit runs the fragments that its data gets to inside of the
blocks, each after those that feed it and otherwise in the order of their numbers.

`RunsFrom` says so by elements and does not mention the edges between fragments.  Within a block
these are the same, as `Fragments.Divided.mem_edges_iff` says, and fragments of different blocks on
one side do not feed each other.
-/

namespace FlowPlan

open Relation

/-! ## Groups of ports -/

/-- Every port is in one group, and two are in the same exactly if they are alike. -/
structure IsGroupedBy (alike : PortId → PortId → Prop) (ports : List PortId)
    (groups : List (List PortId)) : Prop where
  covered : ∀ p ∈ ports, ∃ group, groups.filter (·.contains p) = [group]
  shared : ∀ p ∈ ports, ∀ q ∈ ports, (∃ group ∈ groups, p ∈ group ∧ q ∈ group) ↔ alike p q
  within : ∀ group ∈ groups, group ≠ [] ∧ group.Sublist ports

theorem isGroupedBy_groupByKey {κ : Type} [DecidableEq κ] {key : PortId → κ}
    {alike : PortId → PortId → Prop} {ports : List PortId}
    (hkey : ∀ p ∈ ports, ∀ q ∈ ports, (key p = key q ↔ alike p q)) :
    IsGroupedBy alike ports ((groupByKey key ports).map (·.2)) where
  covered p hp := by
    have hgroups : (groupByKey key ports).filter (·.2.contains p)
        = [(key p, ports.filter (key · = key p))] := filter_groupByKey hp
    refine ⟨ports.filter (key · = key p), ?_⟩
    rw [List.filter_map]
    exact congrArg (List.map (·.2)) hgroups
  shared p hp q hq := by
    rw [← hkey p hp q hq]
    constructor
    · intro hshared
      obtain ⟨_, hmem, hpg, hqg⟩ := hshared
      obtain ⟨group, hgroup, rfl⟩ := List.mem_map.1 hmem
      obtain ⟨-, hitems⟩ := mem_groupByKey.1 hgroup
      rw [hitems, List.mem_filter, decide_eq_true_iff] at hpg hqg
      rw [hpg.2, hqg.2]
    · intro heq
      have hgroup : (key p, ports.filter (key · = key p)) ∈ groupByKey key ports :=
        mem_groupByKey.2 ⟨⟨p, hp, rfl⟩, rfl⟩
      refine ⟨_, List.mem_map_of_mem hgroup, ?_, ?_⟩
      · exact List.mem_filter.2 ⟨hp, decide_eq_true rfl⟩
      · exact List.mem_filter.2 ⟨hq, decide_eq_true heq.symm⟩
  within group hmem := by
    obtain ⟨⟨k, items⟩, hgroup, rfl⟩ := List.mem_map.1 hmem
    obtain ⟨⟨p, hp, hk⟩, hitems⟩ := mem_groupByKey.1 hgroup
    dsimp only at hitems hk
    rw [hitems]
    exact ⟨List.ne_nil_of_mem (List.mem_filter.2 ⟨hp, decide_eq_true hk⟩), List.filter_sublist⟩

/-! ## What a unit runs -/

/-- Some element of one fragment feeds an element of another. -/
def Fragment.Feeds (g : FlowGraph) (f n : Fragment) : Prop :=
  f ≠ n ∧ ∃ e ∈ f.elements, ∃ a ∈ n.elements, a ∈ g.successors e

namespace StageGraph

/-- The run of a unit: each fragment that the elements with the inputs lead to is run once, after
those that feed it, and before all others that could be next. -/
structure RunsFrom (sg : StageGraph) (fragments : List Fragment) (inputs : List PortId)
    (ids : List FragmentId) : Prop where
  once : ids.Nodup
  reached : ∀ i, i ∈ ids ↔ ∃ f ∈ fragments, f.id = i ∧ ∃ p ∈ inputs, ∃ a,
    sg.flow.ownerId? p = some a ∧ ∃ e ∈ f.elements, sg.LeadsInside f.block a e
  fed : ∀ f ∈ fragments, ∀ before behind, ids = before ++ f.id :: behind →
    ∀ k ∈ fragments, k.id ∈ ids → k.Feeds sg.flow f → k.id ∈ before
  smallest : ∀ f ∈ fragments, ∀ before behind, ids = before ++ f.id :: behind →
    ∀ n ∈ fragments, n.id ∈ behind →
      (∀ k ∈ fragments, k.id ∈ ids → k.Feeds sg.flow n → k.id ∈ before) → f.id < n.id

open FlowGraph Fragmentation

variable {g : FlowGraph} {stage : Stage} {b b' : Block} {p : PortId} {i : FragmentId}

/-! ## The fragments of a stage -/

theorem mem_innerBlocks_of_mem_blocksIn (hstage : stage ∈ (plan g).1.stages)
    (hb : b ∈ blocksIn g stage) : b ∈ innerBlocks g :=
  mem_staged.1 ((stages_perm g).mem_iff.1 (List.mem_flatMap.2 ⟨stage, hstage, hb⟩))

section Stage

variable {processor : ElementId → Processor} {fs : Fragments} {f n : Fragment}
  {level : ElementId → Nat} {heads : List FragmentId} {inputs : List PortId} {side : Bool}
  (h : g.Coherent) (hlevel : g.IsLevelling level) (hstage : stage ∈ (plan g).1.stages)
  (hd : Fragments.Divided g processor (blocksIn g stage) fs)

include h hd

/-- Data that enters a block arrives at the fragments that its element leads to. -/
theorem arrives_iff (hb : b ∈ blocksIn g stage) (hp : p ∈ b.inputs) :
    StageModel.Arrives (plan g).1 fs p i ↔ ∃ f ∈ fs.list, f.id = i ∧
      ∃ a, g.ownerId? p = some a ∧ ∃ e ∈ f.elements, (plan g).1.LeadsInside f.block a e := by
  have hbs := areBlocks_blocksIn g stage
  constructor
  · intro harrives
    obtain ⟨f, hf, hid, a, hpa, hled⟩ := leadsInside_of_arrives h hd harrives
    exact ⟨f, hf, hid, a, hpa, f.head, hd.head_mem_elements h hbs hf, hled⟩
  · intro hled
    obtain ⟨f, hf, rfl, a, hpa, e, he, hled⟩ := hled
    obtain ⟨k, hk, hfk, -⟩ := hd.head_mem hf
    rw [hfk] at hled
    obtain rfl := eq_of_leadsInside h hk hb hp hpa hled
    obtain ⟨m, hm, hmk, hem, harrives⟩ := arrives_of_leadsInside h hd hb hp hpa hled
    obtain rfl := hd.eq_of_mem_elements h hbs hm hf (hmk.trans hfk.symm) hem he
    exact harrives

include hstage in
/-- Fragments on one side that feed each other are in one block. -/
theorem block_eq_of_feeds (hf : f ∈ fs.list) (hn : n ∈ fs.list) (hb : b ∈ blocksIn g stage)
    (hb' : b' ∈ blocksIn g stage) (hfb : f.block = b.id) (hnb : n.block = b'.id)
    (hside : b.isReduce = b'.isReduce) (hfeeds : f.Feeds g n) : f.block = n.block := by
  obtain ⟨-, e, he, a, ha, hea⟩ := hfeeds
  have hbs := areBlocks_blocksIn g stage
  have heb := hd.mem_elements h hbs hb hf hfb he
  have hab := hd.mem_elements h hbs hb' hn hnb ha
  obtain ⟨x, hx, rfl⟩ := hbs.inGraph b hb e heb
  obtain ⟨y, hy, rfl, hxy⟩ := (h.mem_successors hx).1 hea
  rw [hfb, hnb, eq_of_feeds h (mem_innerBlocks_of_mem_blocksIn hstage hb)
    (mem_innerBlocks_of_mem_blocksIn hstage hb') hx hy heb hab hxy hside]

variable (hinputs : ∀ p ∈ inputs, ∃ b ∈ blocksIn g stage, b.isReduce = side ∧ p ∈ b.inputs)
  (hreach : ∀ i, i ∈ fs.orderedFrom heads ↔ ∃ p ∈ inputs, StageModel.Arrives (plan g).1 fs p i)

include hinputs hreach

theorem mem_orderedFrom_iff : i ∈ fs.orderedFrom heads ↔ ∃ f ∈ fs.list, f.id = i ∧
    ∃ p ∈ inputs, ∃ a, g.ownerId? p = some a ∧
      ∃ e ∈ f.elements, (plan g).1.LeadsInside f.block a e := by
  rw [hreach]
  constructor
  · intro hmem
    obtain ⟨p, hp, harrives⟩ := hmem
    obtain ⟨b, hb, -, hpb⟩ := hinputs p hp
    obtain ⟨f, hf, hid, hled⟩ := (arrives_iff h hd hb hpb).1 harrives
    exact ⟨f, hf, hid, p, hp, hled⟩
  · intro hmem
    obtain ⟨f, hf, hid, p, hp, hled⟩ := hmem
    obtain ⟨b, hb, -, hpb⟩ := hinputs p hp
    exact ⟨p, hp, (arrives_iff h hd hb hpb).2 ⟨f, hf, hid, hled⟩⟩

/-- A unit stays on the side of its inputs. -/
theorem exists_block_of_mem_orderedFrom (hf : f ∈ fs.list) (hi : f.id ∈ fs.orderedFrom heads) :
    ∃ b ∈ blocksIn g stage, f.block = b.id ∧ b.isReduce = side := by
  obtain ⟨f', hf', hid, p, hp, a, hpa, e, -, hled⟩ :=
    (mem_orderedFrom_iff h hd hinputs hreach).1 hi
  obtain rfl := hd.eq_of_id_eq hf' hf hid
  obtain ⟨b, hb, hside, hpb⟩ := hinputs p hp
  obtain ⟨k, hk, hfk, -⟩ := hd.head_mem hf
  obtain rfl := eq_of_leadsInside h hk hb hpb hpa (hfk ▸ hled)
  exact ⟨k, hk, hfk, hside⟩

include hlevel hstage

theorem mem_edges_iff_feeds (hf : f ∈ fs.list) (hn : n ∈ fs.list)
    (hfi : f.id ∈ fs.orderedFrom heads) (hni : n.id ∈ fs.orderedFrom heads) :
    (f.id, n.id) ∈ fs.edges ↔ f.Feeds g n := by
  obtain ⟨b, hb, hfb, hside⟩ := exists_block_of_mem_orderedFrom h hd hinputs hreach hf hfi
  obtain ⟨b', hb', hnb, hside'⟩ := exists_block_of_mem_orderedFrom h hd hinputs hreach hn hni
  have hedges := fun hsame => hd.mem_edges_iff h hlevel (areBlocks_blocksIn g stage) hf hn hsame
  constructor
  · intro hedge
    obtain ⟨f', hf', n', hn', hid, hid', hsame, -⟩ := (hd.edges _ _).1 hedge
    obtain rfl := hd.eq_of_id_eq hf' hf hid
    obtain rfl := hd.eq_of_id_eq hn' hn hid'
    exact (hedges hsame.symm).1 hedge
  · intro hfeeds
    exact (hedges (block_eq_of_feeds h hstage hd hf hn hb hb' hfb hnb (hside.trans hside'.symm)
      hfeeds)).2 hfeeds

/-- A unit whose inputs are on one side runs what data arrives at from there, in order. -/
theorem runsFrom_orderedFrom : (plan g).1.RunsFrom fs.list inputs (fs.orderedFrom heads) where
  once := hd.orderedFrom_nodup h hlevel (areBlocks_blocksIn g stage) heads
  reached _ := mem_orderedFrom_iff h hd hinputs hreach
  fed f hf before behind hsplit k hk hki hfeeds := by
    have hfi : f.id ∈ fs.orderedFrom heads := hsplit ▸ List.mem_append_right _ List.mem_cons_self
    have hedge := (mem_edges_iff_feeds h hlevel hstage hd hinputs hreach hk hf hki hfi).2 hfeeds
    exact (hd.orderedFrom_places h hlevel (areBlocks_blocksIn g stage) hsplit).1 k.id hki hedge
  smallest f hf before behind hsplit n hn hnb hready := by
    have hni : n.id ∈ fs.orderedFrom heads :=
      hsplit ▸ List.mem_append_right _ (List.mem_cons_of_mem _ hnb)
    refine (hd.orderedFrom_places h hlevel (areBlocks_blocksIn g stage) hsplit).2 n.id hnb
      fun k hki hedge => ?_
    obtain ⟨m, hm, n', hn', rfl, hid, -⟩ := (hd.edges _ _).1 hedge
    obtain rfl := hd.eq_of_id_eq hn' hn hid
    exact hready m hm hki ((mem_edges_iff_feeds h hlevel hstage hd hinputs hreach hm hn hki hni).1
      hedge)

end Stage

/-! ## The units of a stage -/

theorem isReduce_of_mem_mapBlocks (hstage : stage ∈ (plan g).1.stages) (hb : b ∈ blocksIn g stage)
    (hi : b.id ∈ stage.mapBlocks) : b.isReduce = false := by
  have hside := isMap_eq_not_isReduce (mem_innerBlocks_of_mem_blocksIn hstage hb)
  obtain ⟨leader, -, rfl⟩ := mem_stages hstage
  rw [((mem_mapBlocks (mem_blocksIn.1 hb).1).1 hi).1] at hside
  simpa using hside

theorem isReduce_of_mem_reduceBlocks (hstage : stage ∈ (plan g).1.stages)
    (hb : b ∈ blocksIn g stage) (hi : b.id ∈ stage.reduceBlocks) : b.isReduce = true := by
  obtain ⟨leader, -, rfl⟩ := mem_stages hstage
  exact ((mem_reduceBlocks (mem_blocksIn.1 hb).1).1 hi).1

/-- The inputs of some blocks of a stage are inputs of its blocks. -/
theorem exists_block_of_input {ids : List BlockId} (hids : ∀ i ∈ ids, i ∈ stage.blocks)
    (hp : p ∈ ids.flatMap (plan g).1.inputsOf) :
    ∃ b ∈ blocksIn g stage, b.id ∈ ids ∧ p ∈ b.inputs := by
  obtain ⟨b, hb, hi, hpb⟩ := mem_flatMap_inputsOf.1 hp
  exact ⟨b, mem_blocksIn.2 ⟨hb, hids b.id hi⟩, hi, hpb⟩

section Units

variable {fs : Fragments} {processor : ElementId → Processor} {level : ElementId → Nat}
  (h : g.Coherent) (hlevel : g.IsLevelling level) (hstage : stage ∈ (plan g).1.stages)
  (hd : Fragments.Divided g processor (blocksIn g stage) fs)

theorem mapUnits_grouped (sg : StageGraph) (stage : Stage) (fs : Fragments) :
    IsGroupedBy (fun p q => ∀ u, u ∈ sg.sourcesOf p ↔ u ∈ sg.sourcesOf q)
      (stage.mapBlocks.flatMap sg.inputsOf)
      ((StageModel.mapUnitsOf sg stage fs).map (·.inputs)) := by
  rw [StageModel.mapUnitsOf, List.map_map]
  refine isGroupedBy_groupByKey fun p _ q _ => ⟨fun heq u => ?_, ascending_congr⟩
  rw [← mem_ascending, heq, mem_ascending]

include h in
theorem reduceUnits_grouped (fs : Fragments) :
    IsGroupedBy (fun p q => g.ownerId? p = g.ownerId? q)
      (stage.reduceBlocks.flatMap (plan g).1.inputsOf)
      ((StageModel.reduceUnitsOf (plan g).1 stage fs).map (·.inputs)) := by
  rw [StageModel.reduceUnitsOf, List.map_map]
  refine isGroupedBy_groupByKey fun p hp q hq => ?_
  obtain ⟨x, -, -, hx⟩ := exists_owner h hp
  obtain ⟨y, -, -, hy⟩ := exists_owner h hq
  rw [show (plan g).1.flow = g from rfl, hx, hy, Option.getD_some, Option.getD_some,
    Option.some_inj]

include h hlevel hstage hd

theorem mapUnit_runs {unit : MapUnit} (hunit : unit ∈ StageModel.mapUnitsOf (plan g).1 stage fs) :
    (plan g).1.RunsFrom fs.list unit.inputs unit.fragments := by
  obtain ⟨⟨key, inputs⟩, hgroup, rfl⟩ := List.mem_map.1 hunit
  have hinputs : ∀ p ∈ inputs, ∃ b ∈ blocksIn g stage, b.isReduce = false ∧ p ∈ b.inputs := by
    intro p hp
    have hitems : inputs = _ := (mem_groupByKey.1 hgroup).2
    rw [hitems] at hp
    obtain ⟨b, hb, hi, hpb⟩ :=
      exists_block_of_input (fun _ => List.mem_append_left _) (List.mem_of_mem_filter hp)
    exact ⟨b, hb, isReduce_of_mem_mapBlocks hstage hb hi, hpb⟩
  exact runsFrom_orderedFrom h hlevel hstage hd hinputs fun i =>
    StageModel.mem_orderedFrom_headsAt fun _ _ =>
      hd.mem_orderedFrom h hlevel (areBlocks_blocksIn g stage)

theorem reduceUnit_runs {unit : ReduceUnit}
    (hunit : unit ∈ StageModel.reduceUnitsOf (plan g).1 stage fs) :
    (plan g).1.RunsFrom fs.list unit.inputs unit.fragments ∧
      ∀ p ∈ unit.inputs, g.ownerId? p = some unit.element := by
  obtain ⟨⟨a, inputs⟩, hgroup, rfl⟩ := List.mem_map.1 hunit
  obtain ⟨⟨q, hq, hqa⟩, hitems⟩ := mem_groupByKey.1 hgroup
  dsimp only at hqa hitems ⊢
  have hmem : ∀ p ∈ inputs, p ∈ stage.reduceBlocks.flatMap (plan g).1.inputsOf ∧
      g.ownerId? p = some a := by
    intro p hp
    rw [hitems, List.mem_filter, decide_eq_true_iff] at hp
    obtain ⟨hp, hpa⟩ := hp
    obtain ⟨x, -, -, hx⟩ := exists_owner h hp
    rw [show (plan g).1.flow = g from rfl, hx, Option.getD_some] at hpa
    exact ⟨hp, hpa ▸ hx⟩
  have hinputs : ∀ p ∈ inputs, ∃ b ∈ blocksIn g stage, b.isReduce = true ∧ p ∈ b.inputs := by
    intro p hp
    obtain ⟨b, hb, hi, hpb⟩ :=
      exists_block_of_input (fun _ => List.mem_append_right _) (hmem p hp).1
    exact ⟨b, hb, isReduce_of_mem_reduceBlocks hstage hb hi, hpb⟩
  have hqin : q ∈ inputs := by
    rw [hitems]
    exact List.mem_filter.2 ⟨hq, decide_eq_true hqa⟩
  refine ⟨runsFrom_orderedFrom h hlevel hstage hd hinputs fun i => ?_, fun p hp => (hmem p hp).2⟩
  rw [StageModel.mem_orderedFrom_headedBy? fun _ _ =>
    hd.mem_orderedFrom h hlevel (areBlocks_blocksIn g stage)]
  -- All inputs of the unit have one owner, and there is one.
  constructor
  · intro hmem'
    exact ⟨q, hqin, a, (hmem q hqin).2, hmem'⟩
  · intro hmem'
    obtain ⟨p, hp, a', hpa, harrives⟩ := hmem'
    obtain rfl := Option.some.inj ((hmem p hp).2.symm.trans hpa)
    exact harrives

end Units

/-- In a plan of a graph without circles, every input of a stage is in one unit of its model: on the
map side with those that read the same, on the reduce side with those of the same element.  The
units run what their data gets to, in order. -/
theorem plan_orders_units (h : g.WellFormed)
    (hacyclic : ∀ i, ¬ TransGen (fun i j => j ∈ g.successors i) i i)
    (hstage : stage ∈ (plan g).1.stages) {shuffle : Option ShuffleModel}
    {processors : ProcessorRegistry} {m : StageModel}
    (hm : (analyzeStage (plan g).1 stage shuffle processors).1 = some m) :
    IsGroupedBy (fun p q => ∀ u, u ∈ (plan g).1.sourcesOf p ↔ u ∈ (plan g).1.sourcesOf q)
        (stage.mapBlocks.flatMap (plan g).1.inputsOf) (m.mapUnits.map (·.inputs)) ∧
      IsGroupedBy (fun p q => g.ownerId? p = g.ownerId? q)
        (stage.reduceBlocks.flatMap (plan g).1.inputsOf) (m.reduceUnits.map (·.inputs)) ∧
      (∀ unit ∈ m.mapUnits, (plan g).1.RunsFrom m.fragments unit.inputs unit.fragments) ∧
      ∀ unit ∈ m.reduceUnits, (plan g).1.RunsFrom m.fragments unit.inputs unit.fragments ∧
        ∀ p ∈ unit.inputs, g.ownerId? p = some unit.element := by
  obtain ⟨level, hlevel⟩ := exists_levelling h.coherent ((cycles_eq_nil_iff h.coherent).2 hacyclic)
  have hd := divided_fragmentsOf h.coherent hstage processors
  obtain rfl := Compilation.eq_ofStage_of_analyzeStage hm
  exact ⟨mapUnits_grouped _ stage _, reduceUnits_grouped h.coherent _,
    fun _ hunit => mapUnit_runs h.coherent hlevel hstage hd hunit,
    fun _ hunit => reduceUnit_runs h.coherent hlevel hstage hd hunit⟩

/-- Records that are split, worked on in two ways, joined, and shuffled.  The operator that joins
them is declared first. -/
def diamond : FlowGraph :=
  let plain (name : String) : PortDecl := .plain name "Record"
  let key : PortDecl := { plain "in" with key := some ⟨["key"], []⟩ }
  let work (name : String) (inputs outputs : List PortDecl) (boundary : Boundary) : ElementDecl :=
    .operator name { name, kind := "update", resources := [] } inputs outputs boundary
  assemble
    [.input "in" "Record", work "join" [plain "left", plain "right"] [plain "out"] .none,
      work "fork" [plain "in"] [plain "left", plain "right"] .none,
      work "a" [plain "in"] [plain "out"] .none, work "b" [plain "in"] [plain "out"] .none,
      work "sum" [key] [plain "out"] .shuffle, .output "out" "Record"]
    [(0, 4), (5, 7), (6, 9), (8, 1), (10, 2), (3, 11), (12, 13)]

theorem diamond_stages : (plan diamond).1.stages = [⟨1, [1], [2]⟩] :=
  (stages_of_singleton 1 (by cbv)).trans (by cbv)

/-- The fragment of the join has the first number, and runs last. -/
theorem diamond_runs : diamond.WellFormed ∧
    (∀ i, ¬ TransGen (fun i j => j ∈ diamond.successors i) i i) ∧
    ⟨1, [1], [2]⟩ ∈ (plan diamond).1.stages ∧
    ∃ m, (analyzeStage (plan diamond).1 ⟨1, [1], [2]⟩ none Compilation.updateOnly).1 = some m ∧
      m.mapUnits = [⟨[4], [1, 2, 3, 0]⟩] ∧ m.reduceUnits = [⟨5, [11], [4]⟩] ∧
      (plan diamond).1.RunsFrom m.fragments [4] [1, 2, 3, 0] ∧
      (plan diamond).1.RunsFrom m.fragments [11] [4] ∧ diamond.ownerId? 11 = some 5 := by
  have hwf : diamond.WellFormed := assemble_wellFormed _ (by simp)
  have hcycles : diamond.cycles = [] := by cbv
  have hacyclic := (cycles_eq_nil_iff hwf.coherent).1 hcycles
  have hstage : ⟨1, [1], [2]⟩ ∈ (plan diamond).1.stages :=
    diamond_stages ▸ List.mem_singleton_self _
  have hserved :
      StageModel.unserved (plan diamond).1 ⟨1, [1], [2]⟩ Compilation.updateOnly = [] := by
    cbv
  have hm : (analyzeStage (plan diamond).1 ⟨1, [1], [2]⟩ none Compilation.updateOnly).1 = _ :=
    congrArg Prod.fst (Compilation.analyzeStage_of_served hserved)
  have hmap : (StageModel.ofStage (plan diamond).1 ⟨1, [1], [2]⟩ none
      Compilation.updateOnly).mapUnits = [⟨[4], [1, 2, 3, 0]⟩] := by
    cbv
  have hreduce : (StageModel.ofStage (plan diamond).1 ⟨1, [1], [2]⟩ none
      Compilation.updateOnly).reduceUnits = [⟨5, [11], [4]⟩] := by
    cbv
  obtain ⟨-, -, hmapRuns, hreduceRuns⟩ := plan_orders_units hwf hacyclic hstage hm
  have hlast := hreduceRuns _ (hreduce ▸ List.mem_singleton_self _)
  exact ⟨hwf, hacyclic, hstage, _, hm, hmap, hreduce,
    hmapRuns _ (hmap ▸ List.mem_singleton_self _), hlast.1, hlast.2 11 (List.mem_singleton_self _)⟩

end StageGraph
end FlowPlan
