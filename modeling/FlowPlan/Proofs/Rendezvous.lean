import FlowPlan.Proofs.Outcomes
import FlowPlan.Proofs.Sinks
import FlowPlan.Proofs.StagePlans

/-!
The shuffle of a stage and the units of its reduce side name the same elements in the same order.

Both go through the inputs of the reduce blocks, apart from each other: the shuffle lists their
owners and resolves all inputs of each, and the units gather the block inputs by owner.  A generator
pairs what they find by position.  `run_pairs_units` says that it may, where a run reports no error;
what it rests on is that such a shuffle has a segment for each input of each element that it lists,
in their order (`analyzeShuffle_places`).
-/

namespace FlowPlan

/-! ## Shuffles without faults -/

namespace Shuffle

variable {g : FlowGraph} {processors : ProcessorRegistry} {classes : DataClassRegistry} {i : Nat}

/-- What a segment is for: the position and the number of an element, and one of its inputs. -/
structure Place where
  position : Nat
  element : ElementId
  port : PortId

def placeOf (s : Segment) : Place := ⟨s.elementIndex, s.element, s.port⟩

/-- The segment of a port. -/
def segmentOf? : Except (List ShuffleFault) Segment → Option Segment
  | .ok s => some s
  | .error _ => none

/-- The faults of a port. -/
def faultsOf : Except (List ShuffleFault) Segment → List ShuffleFault
  | .ok _ => []
  | .error fs => fs

/-- A port has a segment in its place, or faults. -/
theorem resolvePort_spec (g : FlowGraph) (classes : DataClassRegistry) (i : Nat) (e : ElementId)
    (p : Port) : (∃ s, resolvePort g classes i e p = .ok s ∧ placeOf s = ⟨i, e, p.id⟩) ∨
      faultsOf (resolvePort g classes i e p) ≠ [] := by
  fun_cases resolvePort g classes i e p with
  | case5 => exact .inl ⟨_, rfl, rfl⟩
  | case6 _ _ _ _ _ target _ _ hnames =>
    exact .inr fun hnil => hnames (List.map_eq_nil_iff.1 hnil)
  | _ => exact .inr (List.cons_ne_nil _ _)

theorem places_of_ports {e : ElementId} (ps : List Port)
    (h : (ps.map (resolvePort g classes i e)).flatMap faultsOf = []) :
    ((ps.map (resolvePort g classes i e)).filterMap segmentOf?).map placeOf
      = ps.map fun p => ⟨i, e, p.id⟩ := by
  induction ps with
  | nil => rfl
  | cons p ps ih =>
    rw [List.map_cons, List.flatMap_cons, List.append_eq_nil_iff] at h
    obtain ⟨s, hs, hplace⟩ := (resolvePort_spec g classes i e p).resolve_right fun hne => hne h.1
    have hsegment : segmentOf? (resolvePort g classes i e p) = some s := by rw [hs, segmentOf?]
    rw [List.map_cons, List.filterMap_cons_some hsegment, List.map_cons, List.map_cons, hplace,
      ih h.2]

theorem agree_of_quiet {segments : List Segment} (h : (agree g segments).2 = []) :
    (agree g segments).1 = segments := by
  cases segments with
  | nil => rfl
  | cons first rest =>
    have hnone := List.filterMap_eq_nil_iff.1 h
    refine congrArg (first :: ·) (List.filter_eq_self.2 fun s hs => ?_)
    rw [hnone s hs]
    rfl

theorem resolveElement_eq (e : Element) : resolveElement g processors classes i e =
    if (ProcessorRegistry.resolve? processors e).any (·.kind == .rendezvous) then
      let results := e.inputs.map (resolvePort g classes i e.id)
      let found := agree g (results.filterMap segmentOf?)
      (found.1, results.flatMap faultsOf ++ found.2)
    else ([], [.noRendezvous e.workKind]) := rfl

/-- Without faults, an element has a segment for each of its inputs. -/
theorem resolveElement_places {e : Element}
    (h : (resolveElement g processors classes i e).2 = []) :
    (resolveElement g processors classes i e).1.map placeOf
      = e.inputs.map fun p => ⟨i, e.id, p.id⟩ := by
  rw [resolveElement_eq] at h ⊢
  by_cases hkind : (ProcessorRegistry.resolve? processors e).any (·.kind == .rendezvous) = true
  · rw [if_pos hkind] at h ⊢
    obtain ⟨hfaults, hmismatches⟩ := List.append_eq_nil_iff.1 h
    exact (congrArg (List.map placeOf) (agree_of_quiet hmismatches)).trans
      (places_of_ports e.inputs hfaults)
  · rw [if_neg hkind] at h
    cases h

/-- The elements that a stage's reduce side is entered by. -/
def entered (sg : StageGraph) (stage : Stage) : List Element :=
  (rendezvousElements sg stage).filterMap sg.flow.element?

/-- The places of all inputs of these elements. -/
def placesOf (sg : StageGraph) (stage : Stage) : List Place :=
  (entered sg stage).zipIdx.flatMap fun (e, i) => e.inputs.map fun p => ⟨i, e.id, p.id⟩

theorem mem_placesOf {sg : StageGraph} {stage : Stage} {place : Place} :
    place ∈ placesOf sg stage ↔ ∃ e, (entered sg stage)[place.position]? = some e ∧
      place.element = e.id ∧ place.port ∈ e.inputIds := by
  rw [placesOf, List.mem_flatMap]
  constructor
  · intro hmem
    obtain ⟨⟨e, i⟩, hplace, hin⟩ := hmem
    obtain ⟨p, hp, rfl⟩ := List.mem_map.1 hin
    exact ⟨e, List.mk_mem_zipIdx_iff_getElem?.1 hplace, rfl, List.mem_map.2 ⟨p, hp, rfl⟩⟩
  · intro hmem
    obtain ⟨i, x, q⟩ := place
    obtain ⟨e, hi, rfl, hq⟩ := hmem
    obtain ⟨p, hp, rfl⟩ := List.mem_map.1 hq
    exact ⟨(e, i), List.mk_mem_zipIdx_iff_getElem?.2 hi, List.mem_map.2 ⟨p, hp, rfl⟩⟩

theorem map_port_placesOf (sg : StageGraph) (stage : Stage) :
    (placesOf sg stage).map (·.port) = (entered sg stage).flatMap (·.inputIds) := by
  conv => rhs; rw [← List.zipIdx_map_fst 0 (entered sg stage), List.flatMap_map]
  rw [placesOf, List.map_flatMap]
  refine List.flatMap_congr fun place _ => ?_
  rw [List.map_map]
  rfl

theorem placeOf_numbered (segments : List Segment) :
    ((segments.zipIdx 1).map fun (s, i) => { s with portIndex := i }).map placeOf
      = segments.map placeOf := by
  conv => rhs; rw [← List.zipIdx_map_fst 1 segments, List.map_map]
  rw [List.map_map]
  rfl

/-- Without faults, a shuffle has a segment for each input of each element that the reduce side is
entered by, in their order. -/
theorem analyzeShuffle_places {sg : StageGraph} {stage : Stage} (hreduce : stage.hasReduce = true)
    (h : (analyzeShuffle sg stage processors classes).2 = []) :
    ∃ shuffle, (analyzeShuffle sg stage processors classes).1 = some shuffle ∧
      shuffle.segments.map placeOf = placesOf sg stage := by
  rw [analyzeShuffle_of_hasReduce hreduce] at h ⊢
  refine ⟨_, rfl, ?_⟩
  rw [placeOf_numbered, List.map_flatMap, resolutions, List.flatMap_map]
  refine List.flatMap_congr fun place hplace => resolveElement_places ?_
  have hfaults := List.flatMap_eq_nil_iff.1 h _ (List.mem_map.2 ⟨place, hplace, rfl⟩)
  exact List.map_eq_nil_iff.1 hfaults

end Shuffle

/-! ## Units of the reduce side -/

namespace StageModel

/-- The inputs of the reduce blocks of a stage. -/
def shuffledInputs (sg : StageGraph) (stage : Stage) : List PortId :=
  stage.reduceBlocks.flatMap sg.inputsOf

variable {sg : StageGraph} {stage : Stage} {fs : Fragments}

/-- Where all inputs have owners, the units are for the elements of the shuffle, in their order. -/
theorem reduceUnitsOf_eq
    (howned : ∀ p ∈ shuffledInputs sg stage, (sg.flow.ownerId? p).isSome) :
    reduceUnitsOf sg stage fs = (Shuffle.rendezvousElements sg stage).map fun e =>
      { element := e, inputs := (shuffledInputs sg stage).filter (sg.flow.ownerId? · = some e),
        fragments := fs.orderedFrom (Fragments.headedBy? fs.list e).toList } := by
  have hkey : ∀ p ∈ shuffledInputs sg stage,
      sg.flow.ownerId? p = some ((sg.flow.ownerId? p).getD 0) := by
    intro p hp
    obtain ⟨e, he⟩ := Option.isSome_iff_exists.1 (howned p hp)
    rw [he, Option.getD_some]
  have hkeys : Shuffle.rendezvousElements sg stage
      = ((shuffledInputs sg stage).map fun p => (sg.flow.ownerId? p).getD 0).eraseDups := by
    rw [← List.filterMap_eq_map, Shuffle.rendezvousElements]
    exact congrArg List.eraseDups (List.filterMap_congr hkey)
  rw [hkeys, reduceUnitsOf, groupByKey, List.map_map]
  refine List.map_congr_left fun e _ => ?_
  have hfilter : ((shuffledInputs sg stage).filter fun p => (sg.flow.ownerId? p).getD 0 = e)
      = (shuffledInputs sg stage).filter (sg.flow.ownerId? · = some e) := by
    refine List.filter_congr fun p hp => decide_eq_decide.2 ?_
    rw [hkey p hp, Option.getD_some, Option.some_inj]
  simp only [Function.comp_apply, ← hfilter]
  rfl

end StageModel

namespace StageGraph

open FlowGraph Shuffle StageModel

variable {g : FlowGraph} {stage : Stage}

theorem mem_shuffledInputs {p : PortId} : p ∈ shuffledInputs (plan g).1 stage ↔
    ∃ b ∈ blocksOf g, b.id ∈ stage.reduceBlocks ∧ p ∈ b.inputs := mem_flatMap_inputsOf

theorem ownerId?_eq_iff (h : g.Coherent) {p : PortId}
    (hp : p ∈ shuffledInputs (plan g).1 stage) {e : Element} (he : e ∈ g.elements) :
    g.ownerId? p = some e.id ↔ p ∈ e.inputIds := by
  constructor
  · intro howner
    obtain ⟨x, hx, hpx, hid⟩ := exists_owner h hp
    obtain rfl := h.eq_of_id_eq hx he (Option.some.inj (hid.symm.trans howner))
    exact hpx
  · exact h.ownerId?_of_input he

theorem mem_rendezvousElements {i : ElementId} : i ∈ rendezvousElements (plan g).1 stage ↔
    ∃ p ∈ shuffledInputs (plan g).1 stage, g.ownerId? p = some i := by
  rw [rendezvousElements, List.mem_eraseDups, List.mem_filterMap]
  rfl

theorem map_id_entered (h : g.Coherent) :
    (entered (plan g).1 stage).map (·.id) = rendezvousElements (plan g).1 stage := by
  rw [entered, List.map_filterMap]
  refine (List.filterMap_congr fun i hi => ?_).trans List.filterMap_some
  obtain ⟨p, hp, howner⟩ := mem_rendezvousElements.1 hi
  obtain ⟨e, he, -, hid⟩ := exists_owner h hp
  obtain rfl := Option.some.inj (hid.symm.trans howner)
  exact congrArg (Option.map _) (h.element?_eq_some he)

theorem entered_nodup (h : g.Coherent) : (entered (plan g).1 stage).Nodup := by
  refine List.Nodup.of_map (·.id) ?_
  rw [map_id_entered h]
  exact nodup_eraseDups _

theorem entered_subset : entered (plan g).1 stage ⊆ g.elements := by
  intro e he
  obtain ⟨i, -, hi⟩ := List.mem_filterMap.1 he
  exact (mem_of_element?_eq_some hi).1

/-- The inputs of the elements that a reduce side is entered by are all different. -/
theorem inputs_entered_nodup (h : g.Coherent) :
    ((entered (plan g).1 stage).flatMap (·.inputIds)).Nodup := by
  refine List.nodup_flatMap.2 ⟨fun e he => ?_, ?_⟩
  · have hn := h.portIds_nodup (entered_subset he)
    rw [Element.portIds_eq] at hn
    exact (List.nodup_append.1 hn).1
  · refine (entered_nodup h).pairwise_of_forall_ne fun e he e' he' hne => ?_
    exact fun p hp hp' => hne (h.eq_of_input (entered_subset he) (entered_subset he') hp hp')

/-! ## Pairs -/

/-- A unit at a position is for the element that a shuffle has at the same position: the unit's
inputs have one segment each, and the other segments of the element are for inputs of it that no
block is entered by. -/
structure Pairs (sg : StageGraph) (shuffle : ShuffleModel) (k : Nat) (unit : ReduceUnit) :
    Prop where
  position : ∀ s ∈ shuffle.segments, s.elementIndex = k ↔ s.element = unit.element
  entered : unit.inputs ≠ []
  found : ∀ p ∈ unit.inputs, ∃ s, shuffle.segments.filter (·.port == p) = [s] ∧
    shuffle.segmentFor? p = some s ∧ s.element = unit.element
  others : ∀ s ∈ shuffle.segmentsOf unit.element, s.port ∉ unit.inputs →
    (∃ e, sg.flow.element? unit.element = some e ∧ s.port ∈ e.inputIds) ∧
      ∀ b ∈ sg.blocks, s.port ∉ b.inputs

/-- Where all segments are for different ports, each is the only one of its port. -/
theorem filter_port_eq {segments : List Segment} {s : Segment}
    (hn : (segments.map (·.port)).Nodup) (hs : s ∈ segments) :
    segments.filter (·.port == s.port) = [s] := by
  refine ((List.perm_ext_iff_of_nodup (hn.of_map.filter _)
    (List.nodup_singleton s)).2 fun s' => ?_).eq_singleton
  rw [List.mem_filter, List.mem_singleton, beq_iff_eq]
  constructor
  · exact fun hmem => List.inj_on_of_nodup_map hn hmem.1 hs hmem.2
  · rintro rfl
    exact ⟨hs, rfl⟩

section Complete

variable {shuffle : ShuffleModel}
  (hplaces : shuffle.segments.map placeOf = placesOf (plan g).1 stage)
include hplaces

theorem exists_element_of_segment {s : Segment} (hs : s ∈ shuffle.segments) :
    ∃ e, (Shuffle.entered (plan g).1 stage)[s.elementIndex]? = some e ∧ s.element = e.id ∧
      s.port ∈ e.inputIds := by
  have hmem : placeOf s ∈ placesOf (plan g).1 stage := hplaces ▸ List.mem_map.2 ⟨s, hs, rfl⟩
  exact mem_placesOf.1 hmem

theorem exists_segment_of_element {e : Element} {k : Nat}
    (hk : (Shuffle.entered (plan g).1 stage)[k]? = some e) {p : PortId} (hp : p ∈ e.inputIds) :
    ∃ s ∈ shuffle.segments, s.element = e.id ∧ s.port = p := by
  have hmem : (⟨k, e.id, p⟩ : Place) ∈ shuffle.segments.map placeOf := by
    rw [hplaces]
    exact mem_placesOf.2 ⟨e, hk, rfl, hp⟩
  obtain ⟨s, hs, heq⟩ := List.mem_map.1 hmem
  obtain ⟨-, helement, hport⟩ := Place.mk.inj heq
  exact ⟨s, hs, helement, hport⟩

/-- A port of an element that the reduce side is entered by has one segment. -/
theorem segment_unique (h : g.Coherent) {s : Segment} (hs : s ∈ shuffle.segments) :
    shuffle.segments.filter (·.port == s.port) = [s] ∧
      shuffle.segmentFor? s.port = some s := by
  have hn : (shuffle.segments.map (·.port)).Nodup := by
    rw [show shuffle.segments.map (·.port) = (shuffle.segments.map placeOf).map (·.port) by
      rw [List.map_map]; rfl, hplaces, map_port_placesOf]
    exact inputs_entered_nodup h
  have hfilter := filter_port_eq hn hs
  refine ⟨hfilter, ?_⟩
  rw [ShuffleModel.segmentFor?, ← List.head?_filter, hfilter]
  rfl

end Complete

section Units

variable {fs : Fragments} {k : Nat} {unit : ReduceUnit}

/-- The element and the inputs of a unit. -/
theorem unit_spec (h : g.Coherent)
    (hunit : (reduceUnitsOf (plan g).1 stage fs)[k]? = some unit) :
    ∃ e, (Shuffle.entered (plan g).1 stage)[k]? = some e ∧ unit.element = e.id ∧
      (∀ p, p ∈ unit.inputs ↔ p ∈ shuffledInputs (plan g).1 stage ∧ p ∈ e.inputIds) ∧
      unit.inputs ≠ [] := by
  rw [reduceUnitsOf_eq fun p hp => ?_, ← map_id_entered h, List.map_map, List.getElem?_map,
    Option.map_eq_some_iff] at hunit
  · obtain ⟨e, hk, rfl⟩ := hunit
    have hmem := List.mem_of_getElem? hk
    have hinputs : ∀ p, p ∈ (shuffledInputs (plan g).1 stage).filter (g.ownerId? · = some e.id) ↔
        p ∈ shuffledInputs (plan g).1 stage ∧ p ∈ e.inputIds := by
      intro p
      rw [List.mem_filter, decide_eq_true_iff]
      exact and_congr_right fun hp => ownerId?_eq_iff h hp (entered_subset hmem)
    have hlisted : e.id ∈ rendezvousElements (plan g).1 stage := by
      rw [← map_id_entered h]
      exact List.mem_map.2 ⟨e, hmem, rfl⟩
    obtain ⟨p, hp, howner⟩ := mem_rendezvousElements.1 hlisted
    exact ⟨e, hk, rfl, hinputs, List.ne_nil_of_mem ((hinputs p).2
      ⟨hp, (ownerId?_eq_iff h hp (entered_subset hmem)).1 howner⟩)⟩
  · obtain ⟨e, -, -, howner⟩ := exists_owner h hp
    exact Option.isSome_iff_exists.2 ⟨e.id, howner⟩

theorem pairs_of_places (h : g.Coherent) {shuffle : ShuffleModel}
    (hplaces : shuffle.segments.map placeOf = placesOf (plan g).1 stage)
    (hunit : (reduceUnitsOf (plan g).1 stage fs)[k]? = some unit) :
    Pairs (plan g).1 shuffle k unit := by
  obtain ⟨e, hk, hid, hinputs, hne⟩ := unit_spec h hunit
  have he := List.mem_of_getElem? hk
  refine ⟨fun s hs => ?position, hne, fun p hp => ?found, fun s hs hp => ?others⟩
  case position =>
    obtain ⟨x, hx, hxid, -⟩ := exists_element_of_segment hplaces hs
    rw [hxid, hid]
    constructor
    · intro hpos
      rw [hpos, hk] at hx
      rw [Option.some.inj hx]
    · intro heq
      obtain rfl := h.eq_of_id_eq (entered_subset (List.mem_of_getElem? hx)) (entered_subset he) heq
      exact (List.getElem?_inj (List.getElem?_eq_some_iff.1 hx).1 (entered_nodup h)).1
        (hx.trans hk.symm)
  case found =>
    obtain ⟨s, hs, helement, rfl⟩ := exists_segment_of_element hplaces hk ((hinputs p).1 hp).2
    obtain ⟨hfilter, hfind⟩ := segment_unique hplaces h hs
    exact ⟨s, hfilter, hfind, helement.trans hid.symm⟩
  case others =>
    obtain ⟨hs, helement⟩ := List.mem_filter.1 hs
    obtain ⟨x, hx, hxid, hport⟩ := exists_element_of_segment hplaces hs
    obtain rfl := h.eq_of_id_eq (entered_subset (List.mem_of_getElem? hx)) (entered_subset he)
      (hxid.symm.trans ((beq_iff_eq.1 helement).trans hid))
    refine ⟨⟨x, hid ▸ h.element?_eq_some (entered_subset he), hport⟩, fun b hb hpb => hp ?_⟩
    -- The block of the element is the one that the unit's inputs enter.
    obtain ⟨q, hq⟩ := List.exists_mem_of_ne_nil _ hne
    obtain ⟨hq, hqx⟩ := (hinputs q).1 hq
    obtain ⟨b', hb', hreduce, hqb⟩ := mem_shuffledInputs.1 hq
    have hin {b : Block} (hb : b ∈ blocksOf g) {p : PortId} (hp : p ∈ b.inputs)
        (hpx : p ∈ x.inputIds) : x.id ∈ b.elements :=
      mem_elements_of_ownerId? h hb (List.mem_append_left _ hp)
        (h.ownerId?_of_input (entered_subset he) hpx)
    obtain rfl := eq_of_mem_elements h hb hb' (hin hb hpb hport) (hin hb' hqb hqx)
    exact (hinputs s.port).2 ⟨mem_shuffledInputs.2 ⟨b, hb, hreduce, hpb⟩, hport⟩

theorem length_reduceUnitsOf (h : g.Coherent) :
    (reduceUnitsOf (plan g).1 stage fs).length = (Shuffle.entered (plan g).1 stage).length := by
  rw [reduceUnitsOf_eq fun p hp => ?_, ← map_id_entered h, List.length_map, List.length_map]
  obtain ⟨e, -, -, howner⟩ := exists_owner h hp
  exact Option.isSome_iff_exists.2 ⟨e.id, howner⟩

end Units

end StageGraph

/-! ## Runs -/

namespace Compilation

open StageGraph

/-- A plan, with the order of its stages as it is spoken of elsewhere. -/
theorem plan_eq (g : FlowGraph) : plan g =
    ({ flow := g, blocks := blocksOf g, input := 0, output := (blocksOf g).length - 1,
       stages := ((stageLeaders g).zipIdx 1).map fun (leader, n) => stageOfLeader g leader n,
       connections := (linksOf g).map (·.connection) }, (plan g).2) := rfl

section Runs

variable {arrival : Arrival} {options : CompilerOptions} {g : FlowGraph}
  {processors : ProcessorRegistry} {dataClasses : DataClassRegistry}

/-- Where a run reports no error, each stage with a reduce side has a shuffle whose positions are
those of the units of its model: every segment is at the position of a unit, and the unit at a
position is paired with the segments there. -/
theorem run_pairs_units (h : g.WellFormed) (arrival : Arrival) (options : CompilerOptions)
    (processors : ProcessorRegistry) (dataClasses : DataClassRegistry)
    (hrun : (runWith arrival options .analyzeStages (start g processors dataClasses)).failure
      = none) :
    let c := (runWith arrival options .analyzeStages (start g processors dataClasses)).result
    ∃ (sg : StageGraph) (models : List StageModel), c.stageGraph = some sg ∧
      c.stageModels = models.map some ∧ models.length = sg.stages.length ∧
      ∀ (i : Nat) (stage : Stage) (m : StageModel), sg.stages[i]? = some stage →
        models[i]? = some m → stage.hasReduce = true →
        ∃ shuffle, c.shuffles[i]? = some (some shuffle) ∧ m.shuffle = some shuffle ∧
          (∀ s ∈ shuffle.segments, s.elementIndex < m.reduceUnits.length) ∧
          ∀ (k : Nat) (unit : ReduceUnit), m.reduceUnits[k]? = some unit →
            sg.Pairs shuffle k unit := by
  have hquiet := analyzeShuffle_of_run hrun
  have hran := hasRun_of_run hrun
  obtain ⟨hsg, models, hmodels, -⟩ := stageModels_of_run hrun
  have hnormal := (FlowGraph.normalize_wellFormed h).coherent
  generalize g.normalize.1 = n at hquiet hsg hnormal
  obtain ⟨sg, hsg', hshuffles⟩ := hran.shuffled (by decide)
  obtain rfl := Option.some.inj (hsg'.symm.trans hsg)
  obtain ⟨sg, hsg', hmodelled⟩ := hran.modelled (by decide)
  obtain rfl := Option.some.inj (hsg'.symm.trans hsg)
  rw [hmodels, modelsOf] at hmodelled
  intro c
  refine ⟨(plan n).1, models, hsg, hmodels, ?_, fun i stage m hstage hm hreduce => ?_⟩
  · simpa only [List.length_map] using congrArg List.length hmodelled
  · obtain ⟨shuffle, hshuffle, hplaces⟩ := Shuffle.analyzeShuffle_places hreduce
      (hquiet stage (List.mem_of_getElem? hstage))
    have hmodel := congrArg (·[i]?) hmodelled
    simp only [List.getElem?_map, hm, hstage, Option.map_some, hshuffle] at hmodel
    obtain rfl := eq_ofStage_of_analyzeStage (Option.some.inj hmodel).symm
    refine ⟨shuffle, ?_, rfl, fun s hs => ?_, fun k unit hunit =>
      pairs_of_places hnormal hplaces hunit⟩
    · rw [show c.shuffles = _ from hshuffles, shufflesOf, List.getElem?_map, hstage,
        Option.map_some, hshuffle]
    · obtain ⟨e, he, -⟩ := exists_element_of_segment hplaces hs
      exact Nat.lt_of_lt_of_eq (List.getElem?_eq_some_iff.1 he).1
        (length_reduceUnitsOf hnormal).symm

end Runs

/-- Two operators that records are shuffled into, the first one with an input that nothing feeds. -/
def sales : FlowGraph :=
  let keyed (name : String) (optional : Bool) : PortDecl :=
    { name, type := "Record", optional, key := some ⟨["key"], []⟩ }
  let shuffled (name : String) (inputs : List PortDecl) : ElementDecl :=
    .operator name { name, kind := "cogroup", resources := [] } inputs [.plain "out" "Record"]
      .shuffle
  FlowGraph.assemble
    [.input "in" "Record", shuffled "join" [keyed "left" false, keyed "spare" true],
      shuffled "count" [keyed "in" false], .output "joined" "Record", .output "counted" "Record"]
    [(0, 1), (0, 4), (3, 6), (5, 7)]

def cogroupOnly : ProcessorRegistry := Catalog.ofList [{ name := "cogroup", kind := .rendezvous }]

def records : DataClassRegistry :=
  Catalog.ofList [{ name := "Record", properties := [{ name := "key", type := .text }] }]

theorem sales_wellFormed : sales.WellFormed := FlowGraph.assemble_wellFormed _ (by simp)

theorem leaderOrder_sales : leaderOrder sales.normalize.1 = ([1], []) :=
  leaderOrder_of_singleton (by cbv)

theorem sales_stages : (plan sales.normalize.1).1.stages = [⟨1, [3, 4], [1, 2]⟩] := by
  rw [stages_plan, stageLeaders, leaderOrder_sales]
  cbv

theorem sales_runs : (runWith .inTurn .default .analyzeStages
    (start sales cogroupOnly records)).failure = none := by
  have hnormal := (FlowGraph.normalize_wellFormed sales_wellFormed).coherent
  have hquiet : (plan sales.normalize.1).2 = [] := by
    rw [defects_plan, leaderOrder_sales]
    cbv
  refine failure_eq_none (by cbv) (by cbv) hquiet (certificate_of_quiet hnormal hquiet) ?_
  rw [sales_stages]
  intro stage hstage
  obtain rfl := List.mem_singleton.1 hstage
  rw [plan_eq]
  exact ⟨by cbv, by cbv⟩

/-- Both reduce blocks are in the one stage, so the pairs are of two elements. -/
theorem sales_paired :
    let c := (runWith .inTurn .default .analyzeStages (start sales cogroupOnly records)).result
    sales.WellFormed ∧ (plan sales.normalize.1).1.stages = [⟨1, [3, 4], [1, 2]⟩] ∧
      (runWith .inTurn .default .analyzeStages
        (start sales cogroupOnly records)).failure = none ∧
      ∃ (sg : StageGraph) (models : List StageModel), c.stageGraph = some sg ∧
        c.stageModels = models.map some ∧ models.length = sg.stages.length ∧
        ∀ (i : Nat) (stage : Stage) (m : StageModel), sg.stages[i]? = some stage →
          models[i]? = some m → stage.hasReduce = true →
          ∃ shuffle, c.shuffles[i]? = some (some shuffle) ∧ m.shuffle = some shuffle ∧
            (∀ s ∈ shuffle.segments, s.elementIndex < m.reduceUnits.length) ∧
            ∀ (k : Nat) (unit : ReduceUnit), m.reduceUnits[k]? = some unit →
              sg.Pairs shuffle k unit :=
  ⟨sales_wellFormed, sales_stages, sales_runs,
    run_pairs_units sales_wellFormed .inTurn .default cogroupOnly records sales_runs⟩

end Compilation
end FlowPlan
