import FlowPlan.Proofs.Coverage
import FlowPlan.Proofs.FragmentGraphs

/-!
What a stage hands over to the stages behind it.

Units begin where data enters the blocks of a stage, and what no unit produces is in no sink.  So an
output is handed over just if data entering its block gets to its element, and
`run_hands_over` says so for the models of all runs without errors.  `generating_dropped` is the
remaining case: an operator without inputs is run by no unit, and its output is lost.
-/

namespace FlowPlan

open Relation

/-! ## Groups -/

section Grouping

variable {α κ : Type} [DecidableEq κ] {key : α → κ} {xs : List α}

theorem exists_group_iff {P : κ → α → Prop} :
    (∃ group ∈ groupByKey key xs, ∃ x ∈ group.2, P group.1 x) ↔ ∃ x ∈ xs, P (key x) x := by
  constructor
  · intro hmem
    obtain ⟨group, hgroup, x, hx, hp⟩ := hmem
    obtain ⟨-, hitems⟩ := mem_groupByKey.1 hgroup
    rw [hitems, List.mem_filter, decide_eq_true_iff] at hx
    exact ⟨x, hx.1, hx.2 ▸ hp⟩
  · intro hmem
    obtain ⟨x, hx, hp⟩ := hmem
    exact ⟨(key x, xs.filter (key · = key x)), mem_groupByKey.2 ⟨⟨x, hx, rfl⟩, rfl⟩, x,
      List.mem_filter.2 ⟨hx, decide_eq_true rfl⟩, hp⟩

/-- An item is in the group of its key and in no other. -/
theorem filter_groupByKey [DecidableEq α] {x : α} (hx : x ∈ xs) :
    (groupByKey key xs).filter (·.2.contains x) = [(key x, xs.filter (key · = key x))] := by
  have hkeys : ((xs.map key).eraseDups.filter fun k => (xs.filter (key · = k)).contains x)
      = [key x] := by
    have hn := (nodup_eraseDups (xs.map key)).filter
      fun k => (xs.filter (key · = k)).contains x
    refine ((List.perm_ext_iff_of_nodup hn (List.nodup_singleton _)).2 fun k => ?_).eq_singleton
    simp only [List.mem_filter, List.mem_eraseDups, List.mem_map, List.contains_iff_mem,
      decide_eq_true_eq, List.mem_singleton]
    constructor
    · exact fun hmem => hmem.2.2.symm
    · rintro rfl
      exact ⟨⟨x, hx, rfl⟩, hx, rfl⟩
  rw [groupByKey, List.filter_map]
  exact congrArg (List.map _) hkeys

theorem exists_key_iff {P : κ → Prop} :
    (∃ group ∈ groupByKey key xs, P group.1) ↔ ∃ x ∈ xs, P (key x) := by
  constructor
  · intro hmem
    obtain ⟨group, hgroup, hp⟩ := hmem
    obtain ⟨⟨x, hx, hkey⟩, -⟩ := mem_groupByKey.1 hgroup
    exact ⟨x, hx, hkey ▸ hp⟩
  · intro hmem
    obtain ⟨x, hx, hp⟩ := hmem
    exact ⟨(key x, xs.filter (key · = key x)), mem_groupByKey.2 ⟨⟨x, hx, rfl⟩, rfl⟩, hp⟩

theorem filter_groupByKey_of_not_mem [DecidableEq α] {x : α} (hx : x ∉ xs) :
    (groupByKey key xs).filter (·.2.contains x) = [] := by
  refine List.filter_eq_nil_iff.2 fun group hgroup hmem => hx ?_
  rw [(mem_groupByKey.1 hgroup).2, List.contains_iff_mem] at hmem
  exact (List.mem_filter.1 hmem).1

theorem map_fst_filter_zipIdx (p : α → Bool) (n : Nat) :
    ((xs.zipIdx n).filter fun pair => p pair.1).map (·.1) = xs.filter p := by
  conv => rhs; rw [← List.zipIdx_map_fst n xs, List.filter_map]
  rfl

end Grouping

/-! ## The sinks of a stage -/

namespace StageModel

variable {sg : StageGraph} {stage : Stage} {fs : Fragments} {units : List (List FragmentId)}
  {u d : PortId} {i j : FragmentId}

theorem mem_producedOutputs : u ∈ producedOutputs sg stage fs units ↔
    (∃ b ∈ stage.blocks, u ∈ sg.outputsOf b) ∧ (∃ i ∈ units.flatten, u ∈ fs.outputsOf i) ∧
      consumers sg stage u ≠ [] := by
  simp [producedOutputs, List.mem_flatMap]

theorem mem_consumers : d ∈ consumers sg stage u ↔
    ⟨u, d⟩ ∈ sg.connections ∧ ∀ b ∈ stage.reduceBlocks, d ∉ sg.inputsOf b := by
  rw [consumers, mem_ascending, List.mem_filter, decide_eq_true_iff, List.mem_flatMap]
  refine and_congr ?_ (by simp)
  rw [StageGraph.targetsOf, List.mem_map]
  constructor
  · intro hmem
    obtain ⟨⟨s, t⟩, hc, rfl⟩ := hmem
    obtain ⟨hconn, hs⟩ := List.mem_filter.1 hc
    obtain rfl : s = u := by simpa using hs
    exact hconn
  · exact fun hc => ⟨_, List.mem_filter.2 ⟨hc, beq_self_eq_true u⟩, rfl⟩

/-- A port that a unit produces for other stages is an output of one sink. -/
theorem filter_sinksOf (hu : u ∈ producedOutputs sg stage fs units) :
    ∃ sink, (sinksOf sg stage fs units).filter (·.outputs.contains u) = [sink] ∧
      sink.receivers = consumers sg stage u := by
  have hgroups : (groupByKey (consumers sg stage) _).filter _ = _ := filter_groupByKey hu
  rw [← map_fst_filter_zipIdx _ 1] at hgroups
  obtain ⟨pair, hpair, hgroup⟩ := List.map_eq_singleton_iff.1 hgroups
  refine ⟨⟨s!"result{pair.2}", pair.1.2, pair.1.1⟩, ?_, by rw [hgroup]⟩
  rw [sinksOf, List.filter_map]
  exact congrArg (List.map _) hpair

theorem filter_sinksOf_of_not_mem (hu : u ∉ producedOutputs sg stage fs units) :
    (sinksOf sg stage fs units).filter (·.outputs.contains u) = [] := by
  have hgroups : (groupByKey (consumers sg stage) _).filter _ = [] :=
    filter_groupByKey_of_not_mem hu
  rw [← map_fst_filter_zipIdx _ 1, List.map_eq_nil_iff] at hgroups
  rw [sinksOf, List.filter_map]
  exact congrArg (List.map _) hgroups

/-! ## The units of a stage -/

/-- What runs in the units of a stage. -/
def unitsOf (sg : StageGraph) (stage : Stage) (fs : Fragments) : List (List FragmentId) :=
  (mapUnitsOf sg stage fs).map (·.fragments) ++ (reduceUnitsOf sg stage fs).map (·.fragments)

/-- A unit of the model runs the fragment. -/
def Runs (m : StageModel) (f : Fragment) : Prop :=
  f ∈ m.fragments ∧ ((∃ unit ∈ m.mapUnits, f.id ∈ unit.fragments) ∨
    ∃ unit ∈ m.reduceUnits, f.id ∈ unit.fragments)

theorem runs_ofStage {sg : StageGraph} {stage : Stage} {shuffle : Option ShuffleModel}
    {processors : ProcessorRegistry} {f : Fragment} :
    (ofStage sg stage shuffle processors).Runs f ↔
      f ∈ (fragmentsOf sg stage processors).list ∧
        f.id ∈ (unitsOf sg stage (fragmentsOf sg stage processors)).flatten := by
  refine and_congr_right fun _ => ?_
  simp [ofStage, unitsOf]

/-- The fragment is reached from the start of one where data enters at the port. -/
def Arrives (sg : StageGraph) (fs : Fragments) (p : PortId) (i : FragmentId) : Prop :=
  ∃ e, sg.flow.ownerId? p = some e ∧
    ∃ j, Fragments.headedBy? fs.list e = some j ∧ ReflTransGen (Fragments.Edge fs) j i

section Units

variable (horder : ∀ heads i, i ∈ fs.orderedFrom heads ↔
  ∃ j ∈ heads, j ∈ fs.list.map (·.id) ∧ ReflTransGen (Fragments.Edge fs) j i)

theorem mem_ids_of_headedBy? {e : ElementId} (hj : Fragments.headedBy? fs.list e = some j) :
    j ∈ fs.list.map (·.id) := by
  obtain ⟨f, hf, -, rfl⟩ := Fragments.exists_of_headedBy? hj
  exact List.mem_map_of_mem hf

include horder

theorem mem_orderedFrom_headsAt {ports : List PortId} :
    i ∈ fs.orderedFrom (headsAt sg fs ports) ↔ ∃ p ∈ ports, Arrives sg fs p i := by
  simp only [horder, headsAt, List.mem_filterMap, Arrives]
  constructor
  · intro hmem
    obtain ⟨j, ⟨e, ⟨p, hp, howner⟩, hj⟩, -, hpath⟩ := hmem
    exact ⟨p, hp, e, howner, j, hj, hpath⟩
  · intro hmem
    obtain ⟨p, hp, e, howner, j, hj, hpath⟩ := hmem
    exact ⟨j, ⟨e, ⟨p, hp, howner⟩, hj⟩, mem_ids_of_headedBy? hj, hpath⟩

theorem mem_orderedFrom_headedBy? {e : ElementId} :
    i ∈ fs.orderedFrom (Fragments.headedBy? fs.list e).toList ↔
      ∃ j, Fragments.headedBy? fs.list e = some j ∧ ReflTransGen (Fragments.Edge fs) j i := by
  simp only [horder, Option.mem_toList]
  refine exists_congr fun j => and_congr_right fun hj => ?_
  exact and_iff_right (mem_ids_of_headedBy? hj)

theorem mem_mapUnitsOf : (∃ unit ∈ mapUnitsOf sg stage fs, i ∈ unit.fragments) ↔
    ∃ b ∈ stage.mapBlocks, ∃ p ∈ sg.inputsOf b, Arrives sg fs p i := by
  simp only [mapUnitsOf, List.mem_map, exists_exists_and_eq_and, mem_orderedFrom_headsAt horder]
  rw [exists_group_iff (P := fun _ p => Arrives sg fs p i)]
  simp only [List.mem_flatMap]
  constructor
  · intro hmem
    obtain ⟨p, ⟨b, hb, hp⟩, harrives⟩ := hmem
    exact ⟨b, hb, p, hp, harrives⟩
  · intro hmem
    obtain ⟨b, hb, p, hp, harrives⟩ := hmem
    exact ⟨p, ⟨b, hb, hp⟩, harrives⟩

theorem mem_reduceUnitsOf
    (howned : ∀ b ∈ stage.reduceBlocks, ∀ p ∈ sg.inputsOf b, (sg.flow.ownerId? p).isSome) :
    (∃ unit ∈ reduceUnitsOf sg stage fs, i ∈ unit.fragments) ↔
      ∃ b ∈ stage.reduceBlocks, ∃ p ∈ sg.inputsOf b, Arrives sg fs p i := by
  simp only [reduceUnitsOf, List.mem_map, exists_exists_and_eq_and,
    mem_orderedFrom_headedBy? horder]
  rw [exists_key_iff (P := fun e => ∃ j, Fragments.headedBy? fs.list e = some j ∧
    ReflTransGen (Fragments.Edge fs) j i)]
  simp only [List.mem_flatMap]
  constructor
  · intro hmem
    obtain ⟨p, ⟨b, hb, hp⟩, j, hj, hpath⟩ := hmem
    obtain ⟨e, he⟩ := Option.isSome_iff_exists.1 (howned b hb p hp)
    rw [he] at hj
    exact ⟨b, hb, p, hp, e, he, j, hj, hpath⟩
  · intro hmem
    obtain ⟨b, hb, p, hp, e, he, j, hj, hpath⟩ := hmem
    exact ⟨p, ⟨b, hb, hp⟩, j, by rwa [he], hpath⟩

theorem mem_unitsOf
    (howned : ∀ b ∈ stage.reduceBlocks, ∀ p ∈ sg.inputsOf b, (sg.flow.ownerId? p).isSome) :
    i ∈ (unitsOf sg stage fs).flatten ↔
      ∃ b ∈ stage.blocks, ∃ p ∈ sg.inputsOf b, Arrives sg fs p i := by
  have hside : i ∈ (unitsOf sg stage fs).flatten ↔
      (∃ unit ∈ mapUnitsOf sg stage fs, i ∈ unit.fragments) ∨
        ∃ unit ∈ reduceUnitsOf sg stage fs, i ∈ unit.fragments := by
    simp [unitsOf]
  rw [hside, mem_mapUnitsOf horder, mem_reduceUnitsOf horder howned]
  simp only [Stage.blocks, List.mem_append, or_and_right, exists_or]

end Units

end StageModel

namespace StageGraph

open FlowGraph Fragmentation

variable {g : FlowGraph} {stage : Stage} {b : Block} {i : BlockId} {u d : PortId}

/-! ## The blocks of a stage -/

theorem mem_field {α : Type} {f : Block → List α} {a : α} :
    a ∈ (((plan g).1.block? i).map f).getD [] ↔ ∃ b ∈ blocksOf g, b.id = i ∧ a ∈ f b := by
  rw [show (plan g).1.block? i = (blocksOf g)[i]? from rfl]
  constructor
  · intro ha
    cases hb : (blocksOf g)[i]? with
    | none =>
      rw [hb] at ha
      cases ha
    | some b =>
      rw [hb] at ha
      exact ⟨b, List.mem_of_getElem? hb, id_of_getElem?_blocksOf hb, ha⟩
  · intro hmem
    obtain ⟨b, hb, rfl, ha⟩ := hmem
    rw [getElem?_blocksOf hb]
    exact ha

theorem mem_inputsOf {p : PortId} :
    p ∈ (plan g).1.inputsOf i ↔ ∃ b ∈ blocksOf g, b.id = i ∧ p ∈ b.inputs := mem_field

theorem mem_flatMap_inputsOf {ids : List BlockId} {p : PortId} :
    p ∈ ids.flatMap (plan g).1.inputsOf ↔ ∃ b ∈ blocksOf g, b.id ∈ ids ∧ p ∈ b.inputs := by
  rw [List.mem_flatMap]
  constructor
  · intro hmem
    obtain ⟨i, hi, hp⟩ := hmem
    obtain ⟨b, hb, rfl, hpb⟩ := mem_inputsOf.1 hp
    exact ⟨b, hb, hi, hpb⟩
  · intro hmem
    obtain ⟨b, hb, hi, hpb⟩ := hmem
    exact ⟨b.id, hi, mem_inputsOf.2 ⟨b, hb, rfl, hpb⟩⟩

theorem exists_owner (h : g.Coherent) {ids : List BlockId} {p : PortId}
    (hp : p ∈ ids.flatMap (plan g).1.inputsOf) :
    ∃ e ∈ g.elements, p ∈ e.inputIds ∧ g.ownerId? p = some e.id := by
  obtain ⟨b, hb, -, hpb⟩ := mem_flatMap_inputsOf.1 hp
  obtain ⟨e, he, -, hpe⟩ := exists_of_mem_inputs h hb hpb
  exact ⟨e, he, hpe, h.ownerId?_of_input he hpe⟩

theorem mem_outputsOf :
    u ∈ (plan g).1.outputsOf i ↔ ∃ b ∈ blocksOf g, b.id = i ∧ u ∈ b.outputs := mem_field

theorem mem_elementsOf (hb : b ∈ blocksOf g) {e : ElementId} :
    e ∈ (plan g).1.elementsOf b.id ↔ e ∈ b.elements := by
  rw [elementsOf, show (plan g).1.block? b.id = some b from getElem?_blocksOf hb]
  rfl

/-- The owner of a port of a block is in the block. -/
theorem mem_elements_of_ownerId? (h : g.Coherent) (hb : b ∈ blocksOf g) (hu : u ∈ b.ports)
    {e : ElementId} (howner : g.ownerId? u = some e) : e ∈ b.elements := by
  obtain ⟨x, hx, hxb, hux⟩ := exists_of_mem_ports h hb hu
  rw [(h.ownerId?_iff hx).2 hux] at howner
  exact Option.some.inj howner ▸ hxb

/-- The blocks of a stage. -/
def blocksIn (g : FlowGraph) (stage : Stage) : List Block :=
  stage.blocks.filterMap (plan g).1.block?

theorem mem_blocksIn : b ∈ blocksIn g stage ↔ b ∈ blocksOf g ∧ b.id ∈ stage.blocks := by
  rw [blocksIn, List.mem_filterMap]
  constructor
  · intro hmem
    obtain ⟨i, hi, hb⟩ := hmem
    have hget : (blocksOf g)[i]? = some b := hb
    exact ⟨List.mem_of_getElem? hget, (id_of_getElem?_blocksOf hget).symm ▸ hi⟩
  · intro hmem
    exact ⟨b.id, hmem.2, getElem?_blocksOf hmem.1⟩

theorem areBlocks_blocksIn (g : FlowGraph) (stage : Stage) :
    Fragments.AreBlocks g (blocksIn g stage) where
  inGraph _ hb _ he := exists_of_mem_elements (mem_blocksIn.1 hb).1 he
  eq_of_id_eq _ hb _ hb' hid :=
    eq_of_id_eq_of_mem_blocksOf (mem_blocksIn.1 hb).1 (mem_blocksIn.1 hb').1 hid

/-! ## What data entering a block gets to -/

/-- Both elements are in the block, and the first one leads to the second inside of it. -/
def LeadsInside (sg : StageGraph) (b : BlockId) (a e : ElementId) : Prop :=
  a ∈ sg.elementsOf b ∧
    ReflTransGen (fun i j => j ∈ sg.flow.successors i ∧ j ∈ sg.elementsOf b) a e

/-- Data that enters the block somewhere gets to the element of the port inside of the block. -/
def Supplied (sg : StageGraph) (b : BlockId) (u : PortId) : Prop :=
  ∃ p ∈ sg.inputsOf b, ∃ e n, sg.flow.ownerId? p = some e ∧ sg.flow.ownerId? u = some n ∧
    ReflTransGen (fun a m => m ∈ sg.flow.successors a ∧ m ∈ sg.elementsOf b) e n

theorem inside_plan (hb : b ∈ blocksOf g) :
    (fun i j => j ∈ (plan g).1.flow.successors i ∧ j ∈ (plan g).1.elementsOf b.id)
      = Fragments.Inside g b := by
  funext i j
  rw [mem_elementsOf hb]
  rfl

theorem leadsInside_iff (hb : b ∈ blocksOf g) {a e : ElementId} :
    (plan g).1.LeadsInside b.id a e ↔
      a ∈ b.elements ∧ ReflTransGen (Fragments.Inside g b) a e := by
  rw [LeadsInside, mem_elementsOf hb, inside_plan hb]

/-- The element of an input is in one block. -/
theorem eq_of_leadsInside (h : g.Coherent) {b' : Block} (hb : b ∈ blocksIn g stage)
    (hb' : b' ∈ blocksIn g stage) {p : PortId} (hp : p ∈ b'.inputs) {a e : ElementId}
    (hpa : g.ownerId? p = some a) (hled : (plan g).1.LeadsInside b.id a e) : b = b' := by
  have hbg := (mem_blocksIn.1 hb).1
  have hbg' := (mem_blocksIn.1 hb').1
  exact eq_of_mem_elements h hbg hbg' ((leadsInside_iff hbg).1 hled).1
    (mem_elements_of_ownerId? h hbg' (List.mem_append_left _ hp) hpa)

theorem supplied_iff (hb : b ∈ blocksOf g) : (plan g).1.Supplied b.id u ↔
    ∃ p ∈ b.inputs, ∃ e n, g.ownerId? p = some e ∧ g.ownerId? u = some n ∧
      ReflTransGen (Fragments.Inside g b) e n := by
  have hinputs : (plan g).1.inputsOf b.id = b.inputs := by
    rw [inputsOf, show (plan g).1.block? b.id = some b from getElem?_blocksOf hb]
    rfl
  rw [Supplied, inside_plan hb, hinputs]
  rfl

/-- What a connection takes out of a block of a stage is read by the reduce side of the stage, or
one sink of the stage takes it to the end of the connection. -/
def HandsOver (sg : StageGraph) (stage : Stage) (sinks : List Sink) (c : Connection) : Prop :=
  (∃ b ∈ stage.reduceBlocks, c.target ∈ sg.inputsOf b) ∨
    ∃ sink, sinks.filter (·.outputs.contains c.source) = [sink] ∧ c.target ∈ sink.receivers

/-! ## Where data arrives in a stage -/

section Arrivals

variable {processor : ElementId → Processor} {fs : Fragments} {p : PortId} {i : FragmentId}
  (h : g.Coherent) (hd : Fragments.Divided g processor (blocksIn g stage) fs)

include h hd

/-- Data arrives at a fragment through its first element. -/
theorem leadsInside_of_arrives (harrives : StageModel.Arrives (plan g).1 fs p i) :
    ∃ f ∈ fs.list, f.id = i ∧
      ∃ a, g.ownerId? p = some a ∧ (plan g).1.LeadsInside f.block a f.head := by
  have hbs := areBlocks_blocksIn g stage
  obtain ⟨a, hpa, j, hj, hedges⟩ := harrives
  obtain ⟨f, hf, rfl, rfl⟩ := Fragments.exists_of_headedBy? hj
  obtain ⟨n, hn, rfl, k, hk, hfk, hnk, hpath⟩ := hd.inside_of_edges h hbs hf hedges
  have hhead := hd.mem_elements h hbs hk hf hfk (hd.head_mem_elements h hbs hf)
  refine ⟨n, hn, rfl, f.head, hpa, ?_⟩
  rw [hnk]
  exact (leadsInside_iff (mem_blocksIn.1 hk).1).2 ⟨hhead, hpath⟩

/-- What the element of an input leads to is in a fragment that the data arrives at. -/
theorem arrives_of_leadsInside (hb : b ∈ blocksIn g stage) (hp : p ∈ b.inputs) {a e : ElementId}
    (hpa : g.ownerId? p = some a) (hled : (plan g).1.LeadsInside b.id a e) :
    ∃ f ∈ fs.list, f.block = b.id ∧ e ∈ f.elements ∧ StageModel.Arrives (plan g).1 fs p f.id := by
  obtain ⟨hab, hpath⟩ := (leadsInside_iff (mem_blocksIn.1 hb).1).1 hled
  -- The element begins a fragment because data enters the block at it.
  have hstart : a ∈ (Setting.mk g b processor).starts := by
    refine Setting.mem_starts.2 (.inl ⟨hab, ?_⟩)
    rw [Setting.opens, Setting.isEntered,
      List.contains_iff_mem.2 (List.mem_filterMap.2 ⟨p, hp, hpa⟩), Bool.or_true]
  obtain ⟨n, hn, rfl, f, hf, hef, hfb, hedges⟩ :=
    hd.edges_of_inside h (areBlocks_blocksIn g stage) hb hstart hpath
  exact ⟨f, hf, hfb, hef, n.head, hpa, n.id, Fragments.headedBy?_head hd.headsOnce hn, hedges⟩

end Arrivals

/-! ## The units and sinks of a stage of a plan -/

section Stage

variable {level : ElementId → Nat} (h : g.Coherent) (hlevel : g.IsLevelling level)
  (hstage : stage ∈ (plan g).1.stages) (processors : ProcessorRegistry)

include hstage

theorem blocksIn_nodup : (blocksIn g stage).Nodup := by
  obtain ⟨leader, -, rfl⟩ := mem_stages hstage
  exact (blocks_stage_perm leader _).nodup_iff.2 ((blocksOf_nodup g).filter _)

include h

/-- The fragments of a stage are those of its blocks. -/
theorem divided_fragmentsOf :
    Fragments.Divided g (StageModel.processorOf g processors) (blocksIn g stage)
      (StageModel.fragmentsOf (plan g).1 stage processors) := by
  have hapart : (blocksIn g stage).Pairwise fun b b' =>
      b.id ≠ b'.id ∧ ∀ e ∈ b'.elements, e ∉ b.elements := by
    refine (blocksIn_nodup hstage).imp_of_mem fun {b b'} hb hb' hne => ?_
    constructor
    · exact fun hid => hne ((areBlocks_blocksIn g stage).eq_of_id_eq b hb b' hb' hid)
    · intro e he' he
      exact hne (eq_of_mem_elements h (mem_blocksIn.1 hb).1 (mem_blocksIn.1 hb').1 he he')
  exact Fragments.Divided.foldl_addBlock (.empty g (StageModel.processorOf g processors)) hapart

include hlevel

/-- Data arrives at the fragments of a stage in its blocks. -/
theorem mem_units {i : FragmentId} :
    i ∈ (StageModel.unitsOf (plan g).1 stage
        (StageModel.fragmentsOf (plan g).1 stage processors)).flatten ↔
      ∃ b ∈ blocksIn g stage, ∃ p ∈ b.inputs,
        StageModel.Arrives (plan g).1 (StageModel.fragmentsOf (plan g).1 stage processors) p i := by
  have hd := divided_fragmentsOf h hstage processors
  have howned : ∀ b ∈ stage.reduceBlocks, ∀ p ∈ (plan g).1.inputsOf b,
      ((plan g).1.flow.ownerId? p).isSome := by
    intro b hb p hp
    obtain ⟨x, -, -, howner⟩ := exists_owner h (List.mem_flatMap.2 ⟨b, hb, hp⟩)
    exact Option.isSome_of_mem howner
  rw [StageModel.mem_unitsOf (fun _ _ => hd.mem_orderedFrom h hlevel (areBlocks_blocksIn g stage))
    howned]
  constructor
  · intro hmem
    obtain ⟨k, hk, p, hp, harrives⟩ := hmem
    obtain ⟨b, hb, rfl, hpb⟩ := mem_inputsOf.1 hp
    exact ⟨b, mem_blocksIn.2 ⟨hb, hk⟩, p, hpb, harrives⟩
  · intro hmem
    obtain ⟨b, hb, p, hp, harrives⟩ := hmem
    obtain ⟨hb, hk⟩ := mem_blocksIn.1 hb
    exact ⟨b.id, hk, p, mem_inputsOf.2 ⟨b, hb, rfl, hp⟩, harrives⟩

/-- What a unit runs is led to by data that enters its block. -/
theorem supplied_of_mem_unit (hb : b ∈ blocksIn g stage) (hu : u ∈ b.outputs) {f : Fragment}
    (hf : f ∈ (StageModel.fragmentsOf (plan g).1 stage processors).list)
    (hi : f.id ∈ (StageModel.unitsOf (plan g).1 stage
        (StageModel.fragmentsOf (plan g).1 stage processors)).flatten)
    {e : ElementId} (he : e ∈ f.elements) (hue : g.ownerId? u = some e) :
    (plan g).1.Supplied b.id u := by
  have hd := divided_fragmentsOf h hstage processors
  have hbg := (mem_blocksIn.1 hb).1
  obtain ⟨b', hb', p, hp, harrives⟩ := (mem_units h hlevel hstage processors).1 hi
  obtain ⟨n, hn, hid, a, hpa, hled⟩ := leadsInside_of_arrives h hd harrives
  obtain rfl := hd.eq_of_id_eq hn hf hid
  obtain ⟨k, hk, hfk, hhead, helems, -⟩ := hd.exists_last h (areBlocks_blocksIn g stage) hf
  have hgoes := (helems e).1 he
  -- The output is one of the block where the unit begins.
  obtain rfl : k = b := eq_of_mem_elements h (mem_blocksIn.1 hk).1 hbg
    (Setting.mem_of_goesOn (Setting.starts_subset hhead) hgoes)
    (mem_elements_of_ownerId? h hbg (List.mem_append_right _ hu) hue)
  rw [hfk] at hled
  obtain rfl := eq_of_leadsInside h hk hb' hp hpa hled
  obtain ⟨-, hpath⟩ := (leadsInside_iff hbg).1 hled
  exact (supplied_iff hbg).2
    ⟨p, hp, a, e, hpa, hue, hpath.trans (Fragments.inside_of_goesOn hgoes)⟩

/-- What a unit produces in a block is supplied. -/
theorem supplied_of_unit (hb : b ∈ blocksIn g stage) (hu : u ∈ b.outputs) {i : FragmentId}
    (hi : i ∈ (StageModel.unitsOf (plan g).1 stage
        (StageModel.fragmentsOf (plan g).1 stage processors)).flatten)
    (hui : u ∈ (StageModel.fragmentsOf (plan g).1 stage processors).outputsOf i) :
    (plan g).1.Supplied b.id u := by
  have hd := divided_fragmentsOf h hstage processors
  obtain ⟨f, hf, rfl, huf⟩ := hd.exists_of_mem_outputsOf hui
  obtain ⟨-, -, -, -, -, x, hx, hlast, hout⟩ := hd.exists_last h (areBlocks_blocksIn g stage) hf
  exact supplied_of_mem_unit h hlevel hstage processors hb hu hf hi (List.mem_of_getLast? hlast)
    (h.ownerId?_of_output hx (hout ▸ huf))

/-- What is supplied is produced by a unit: its element ends a fragment because it feeds something
outside, and the element that data enters at begins one. -/
theorem exists_unit_of_supplied (hb : b ∈ blocksIn g stage) (hu : u ∈ b.outputs)
    (hsupplied : (plan g).1.Supplied b.id u) :
    ∃ i ∈ (StageModel.unitsOf (plan g).1 stage
        (StageModel.fragmentsOf (plan g).1 stage processors)).flatten,
      u ∈ (StageModel.fragmentsOf (plan g).1 stage processors).outputsOf i := by
  have hd := divided_fragmentsOf h hstage processors
  have hbg := (mem_blocksIn.1 hb).1
  obtain ⟨p, hp, a, n, hpa, hun, hpath⟩ := (supplied_iff hbg).1 hsupplied
  have hab := mem_elements_of_ownerId? h hbg (List.mem_append_left _ hp) hpa
  have hnb := mem_elements_of_ownerId? h hbg (List.mem_append_right _ hu) hun
  obtain ⟨f, hf, hfb, hnf, harrives⟩ :=
    arrives_of_leadsInside h hd hb hp hpa ((leadsInside_iff hbg).2 ⟨hab, hpath⟩)
  have hleft : (Setting.mk g b (StageModel.processorOf g processors)).isLeft n = true :=
    List.contains_iff_mem.2 (List.mem_filterMap.2 ⟨u, hu, hun⟩)
  obtain ⟨x, hx, -, hux⟩ := exists_of_mem_outputs h hbg hu
  obtain rfl := Option.some.inj (hun.symm.trans (h.ownerId?_of_output hx hux))
  refine ⟨f.id, (mem_units h hlevel hstage processors).2 ⟨b, hb, p, hp, harrives⟩, ?_⟩
  rw [hd.outputsOf_id hf, hd.outputs_eq h (areBlocks_blocksIn g stage) hb hf hfb hx hnf fun k =>
    Setting.not_goesOn_of_isLeft hnb hleft]
  exact hux

theorem handsOver_of_supplied (hb : b ∈ blocksIn g stage) {c : Connection}
    (hc : c ∈ (plan g).1.connections) (hu : c.source ∈ b.outputs)
    (hsupplied : (plan g).1.Supplied b.id c.source) (shuffle : Option ShuffleModel) :
    (plan g).1.HandsOver stage
      (StageModel.ofStage (plan g).1 stage shuffle processors).sinks c := by
  by_cases hshuffled : ∃ b ∈ stage.reduceBlocks, c.target ∈ (plan g).1.inputsOf b
  · exact .inl hshuffled
  · have hreceives : c.target ∈ StageModel.consumers (plan g).1 stage c.source :=
      StageModel.mem_consumers.2 ⟨hc, fun k hk hd => hshuffled ⟨k, hk, hd⟩⟩
    obtain ⟨hbg, hk⟩ := mem_blocksIn.1 hb
    have hproduced := StageModel.mem_producedOutputs.2
      ⟨⟨b.id, hk, mem_outputsOf.2 ⟨b, hbg, rfl, hu⟩⟩,
        exists_unit_of_supplied h hlevel hstage processors hb hu hsupplied,
        List.ne_nil_of_mem hreceives⟩
    obtain ⟨sink, hfilter, hreceivers⟩ := StageModel.filter_sinksOf hproduced
    exact .inr ⟨sink, hfilter, hreceivers ▸ hreceives⟩

/-- What is not supplied is in no unit: no fragment that runs has its element, or it among its
outputs. -/
theorem not_mem_unit_of_not_supplied (hb : b ∈ blocksIn g stage) (hu : u ∈ b.outputs)
    (hsupplied : ¬ (plan g).1.Supplied b.id u) (shuffle : Option ShuffleModel) {f : Fragment}
    (hf : (StageModel.ofStage (plan g).1 stage shuffle processors).Runs f) :
    u ∉ f.outputs ∧ ∀ e ∈ f.elements, g.ownerId? u ≠ some e := by
  have hd := divided_fragmentsOf h hstage processors
  obtain ⟨hfs, hi⟩ := StageModel.runs_ofStage.1 hf
  refine ⟨fun huf => hsupplied ?_, fun e he hue => hsupplied ?_⟩
  · exact supplied_of_unit h hlevel hstage processors hb hu hi (by rwa [hd.outputsOf_id hfs])
  · exact supplied_of_mem_unit h hlevel hstage processors hb hu hfs hi he hue

theorem not_mem_outputs_of_not_supplied (hb : b ∈ blocksIn g stage) (hu : u ∈ b.outputs)
    (hsupplied : ¬ (plan g).1.Supplied b.id u) (shuffle : Option ShuffleModel) :
    ∀ sink ∈ (StageModel.ofStage (plan g).1 stage shuffle processors).sinks,
      u ∉ sink.outputs := by
  have hnot : u ∉ StageModel.producedOutputs (plan g).1 stage
      (StageModel.fragmentsOf (plan g).1 stage processors)
      (StageModel.unitsOf (plan g).1 stage
        (StageModel.fragmentsOf (plan g).1 stage processors)) := by
    intro hmem
    obtain ⟨-, ⟨i, hi, hui⟩, -⟩ := StageModel.mem_producedOutputs.1 hmem
    exact hsupplied (supplied_of_unit h hlevel hstage processors hb hu hi hui)
  have hnone := StageModel.filter_sinksOf_of_not_mem hnot
  intro sink hsink hmem
  exact List.filter_eq_nil_iff.1 hnone sink hsink (List.contains_iff_mem.2 hmem)

omit hstage in
/-- In a block where no element is without something in front of it, all outputs are supplied. -/
theorem supplied_of_fed (hb : b ∈ blocksOf g) (hu : u ∈ b.outputs)
    (hfed : ∀ e ∈ b.elements, g.predecessors e ≠ []) : (plan g).1.Supplied b.id u := by
  -- Going back inside of the block leads down in level, so it ends where data enters.
  have hentry : ∀ x ∈ g.elements, x.id ∈ b.elements → ∃ p ∈ b.inputs, ∃ a,
      g.ownerId? p = some a ∧ ReflTransGen (Fragments.Inside g b) a x.id := by
    intro x hx hxb
    induction hn : level x.id using Nat.strong_induction_on generalizing x with
    | _ n ih =>
      obtain ⟨i, hi⟩ := List.exists_mem_of_ne_nil _ (hfed x.id hxb)
      obtain ⟨z, hz, rfl, hzx⟩ := (h.mem_predecessors hx).1 hi
      by_cases hzb : z.id ∈ b.elements
      · obtain ⟨p, hp, a, hpa, hpath⟩ := ih _ (hn ▸ hlevel z hz x hx hzx) z hz hzb rfl
        exact ⟨p, hp, a, hpa, hpath.tail ⟨(h.mem_successors hz).2 ⟨x, hx, rfl, hzx⟩, hxb⟩⟩
      · obtain ⟨c, hc, hs, ht⟩ := hzx
        exact ⟨c.target, mem_inputs h hb hc hx ht hxb hz hs hzb, x.id,
          h.ownerId?_of_input hx ht, .refl⟩
  obtain ⟨x, hx, hxb, hux⟩ := exists_of_mem_outputs h hb hu
  obtain ⟨p, hp, a, hpa, hpath⟩ := hentry x hx hxb
  exact (supplied_iff hb).2
    ⟨p, hp, a, x.id, hpa, h.ownerId?_of_output hx hux, hpath⟩

end Stage

end StageGraph

namespace Compilation

open StageGraph

/-- Where a run reports no error, a connection that leaves a block of a stage is handed over if data
entering the block gets to it, and is in no unit and no sink otherwise.  Data gets to all outputs of
a block where every element has something in front of it. -/
theorem run_hands_over {g : FlowGraph} (h : g.WellFormed) (arrival : Arrival)
    (options : CompilerOptions) (processors : ProcessorRegistry) (dataClasses : DataClassRegistry)
    (hrun : (runWith arrival options .analyzeStages (start g processors dataClasses)).failure
      = none) :
    let c := (runWith arrival options .analyzeStages (start g processors dataClasses)).result
    ∃ (sg : StageGraph) (models : List StageModel), c.stageGraph = some sg ∧
      c.stageModels = models.map some ∧ models.length = sg.stages.length ∧
      ∀ (i : Nat) (stage : Stage) (m : StageModel), sg.stages[i]? = some stage →
        models[i]? = some m →
        ∀ conn ∈ sg.connections, ∀ b ∈ stage.blocks, sg.blockOfPort? conn.source = some b →
          (sg.Supplied b conn.source → sg.HandsOver stage m.sinks conn) ∧
          (¬ sg.Supplied b conn.source →
            (∀ f, m.Runs f → conn.source ∉ f.outputs ∧
              ∀ e ∈ f.elements, sg.flow.ownerId? conn.source ≠ some e) ∧
            ∀ sink ∈ m.sinks, conn.source ∉ sink.outputs) ∧
          ((∀ e ∈ sg.elementsOf b, sg.flow.predecessors e ≠ []) →
            sg.Supplied b conn.source) := by
  obtain ⟨hsg, shuffles, hmodels⟩ := exists_shuffles_of_run hrun
  have hnormal := (FlowGraph.normalize_wellFormed h).coherent
  have hcycles := (List.append_eq_nil_iff.1 (faults_eq_nil_of_run hrun)).2
  obtain ⟨level, hlevel⟩ :=
    FlowGraph.exists_levelling_normalize h (List.map_eq_nil_iff.1 hcycles)
  generalize g.normalize.1 = k at hsg hmodels hnormal hlevel
  intro c
  refine ⟨(plan k).1, (plan k).1.stages.zipIdx.map fun place =>
    StageModel.ofStage (plan k).1 place.1 (shuffles place.2) processors, hsg, ?_, ?_, ?_⟩
  · rw [List.map_map]
    exact hmodels
  · rw [List.length_map, List.length_zipIdx]
  · intro i stage m hstage hm conn hconn b hb hsource
    rw [List.getElem?_map, List.getElem?_zipIdx, hstage] at hm
    obtain rfl := Option.some.inj hm
    obtain ⟨l, hl, rfl⟩ := List.mem_map.1 hconn
    obtain rfl : l.source.id = b :=
      Option.some.inj ((joins_of_mem_linksOf hnormal hl).1.symm.trans hsource)
    have hbg := source_mem_blocksOf hl
    have hu := (mem_linksOf.1 hl).2.1
    have hmem := List.mem_of_getElem? hstage
    have hbs := mem_blocksIn.2 ⟨hbg, hb⟩
    refine ⟨fun hs => ?_, fun hs => ?_, fun hfed => ?_⟩
    · exact handsOver_of_supplied hnormal hlevel hmem processors hbs hconn hu hs _
    · exact ⟨fun f hf =>
          not_mem_unit_of_not_supplied hnormal hlevel hmem processors hbs hu hs _ hf,
        not_mem_outputs_of_not_supplied hnormal hlevel hmem processors hbs hu hs _⟩
    · exact supplied_of_fed hnormal hlevel hbg hu fun e he => hfed e ((mem_elementsOf hbg).2 he)

/-- An operator that makes data of nothing, beside one that changes what it is given. -/
def generating : FlowGraph :=
  FlowGraph.assemble
    [.operator "gen" { name := "gen", kind := "update", resources := [] } []
        [.plain "out" "Record"] .none,
      .input "a" "Record",
      .operator "m" { name := "m", kind := "update", resources := [] } [.plain "in" "Record"]
        [.plain "out" "Record"] .none,
      .output "b" "Record", .output "c" "Record"]
    [(0, 4), (1, 2), (3, 5)]

theorem generating_wellFormed : generating.WellFormed :=
  FlowGraph.assemble_wellFormed _ (by simp)

theorem generating_runs : (runWith .inTurn .default .analyzeStages
    (start generating updateOnly Catalog.empty)).failure = none := by cbv

theorem generating_handed_over :
    let c := (runWith .inTurn .default .analyzeStages
      (start generating updateOnly Catalog.empty)).result
    generating.WellFormed ∧
      (runWith .inTurn .default .analyzeStages
        (start generating updateOnly Catalog.empty)).failure = none ∧
      ∃ (sg : StageGraph) (models : List StageModel), c.stageGraph = some sg ∧
        c.stageModels = models.map some ∧ models.length = sg.stages.length ∧
        ∀ (i : Nat) (stage : Stage) (m : StageModel), sg.stages[i]? = some stage →
          models[i]? = some m →
          ∀ conn ∈ sg.connections, ∀ b ∈ stage.blocks, sg.blockOfPort? conn.source = some b →
            (sg.Supplied b conn.source → sg.HandsOver stage m.sinks conn) ∧
            (¬ sg.Supplied b conn.source →
              (∀ f, m.Runs f → conn.source ∉ f.outputs ∧
                ∀ e ∈ f.elements, sg.flow.ownerId? conn.source ≠ some e) ∧
              ∀ sink ∈ m.sinks, conn.source ∉ sink.outputs) ∧
            ((∀ e ∈ sg.elementsOf b, sg.flow.predecessors e ≠ []) →
              sg.Supplied b conn.source) :=
  ⟨generating_wellFormed, generating_runs, run_hands_over generating_wellFormed .inTurn .default
    updateOnly Catalog.empty generating_runs⟩

/-- What is made of nothing is in no sink, and no stage reads it. -/
theorem generating_dropped :
    let c := (runWith .inTurn .default .analyzeStages
      (start generating updateOnly Catalog.empty)).result
    generating.WellFormed ∧
      (runWith .inTurn .default .analyzeStages
        (start generating updateOnly Catalog.empty)).failure = none ∧
      ∃ (sg : StageGraph) (stage : Stage) (m : StageModel), c.stageGraph = some sg ∧
        sg.stages[0]? = some stage ∧ c.stageModels[0]? = some (some m) ∧
        ⟨0, 4⟩ ∈ sg.connections ∧ 1 ∈ stage.blocks ∧ sg.blockOfPort? 0 = some 1 ∧
        ¬ sg.HandsOver stage m.sinks ⟨0, 4⟩ := by
  obtain ⟨hsg, shuffles, hmodels⟩ := exists_shuffles_of_run generating_runs
  have hstages : (plan generating.normalize.1).1.stages = [⟨1, [1], []⟩, ⟨2, [2], []⟩] := by cbv
  have hsinks : (runWith .inTurn .default .analyzeStages (start generating updateOnly
      Catalog.empty)).result.stageModels.map (Option.map (·.sinks))
        = [some [], some [⟨"result1", [3], [5]⟩]] := by cbv
  have hconn : (plan generating.normalize.1).1.connections = [⟨1, 2⟩, ⟨0, 4⟩, ⟨3, 5⟩] := by cbv
  have hport : (plan generating.normalize.1).1.blockOfPort? 0 = some 1 := by cbv
  rw [hstages] at hmodels
  refine ⟨generating_wellFormed, generating_runs, (plan generating.normalize.1).1, ⟨1, [1], []⟩, _,
    hsg, by rw [hstages]; rfl, by rw [hmodels]; rfl, by rw [hconn]; decide,
    List.mem_singleton_self 1, hport, ?_⟩
  rw [hmodels] at hsinks
  have hnone : (StageModel.ofStage (plan generating.normalize.1).1 ⟨1, [1], []⟩ (shuffles 0)
      updateOnly).sinks = [] := Option.some.inj (List.cons.inj hsinks).1
  intro hover
  rcases hover with hshuffled | hsink
  · obtain ⟨b, hb, -⟩ := hshuffled
    cases hb
  · obtain ⟨sink, hfilter, -⟩ := hsink
    rw [hnone] at hfilter
    cases hfilter

end Compilation

end FlowPlan
