import FlowPlan.Proofs.Inlining
import FlowPlan.Proofs.Runs
import FlowPlan.Proofs.StageElements

/-!
A compilation loses no operator and repeats none.

`run_covers_elements` follows a flow through all passes: the operators at all depths are the
operators of the final flow graph, and the fragments of all stage models hold each of its elements
once, apart from those where data is materialized.  That the run reports no error is used twice: a
graph with a cycle has no chains to cover it, and a stage with an element that no processor runs has
no model.
-/

namespace FlowPlan

/-- The model of a stage all of whose elements have processors. -/
def StageModel.ofStage (sg : StageGraph) (stage : Stage) (shuffle : Option ShuffleModel)
    (processors : ProcessorRegistry) : StageModel :=
  let fs := fragmentsOf sg stage processors
  let mapUnits := mapUnitsOf sg stage fs
  let reduceUnits := reduceUnitsOf sg stage fs
  { stage := stage.number, fragments := fs.list, mapUnits, shuffle, reduceUnits,
    sinks := sinksOf sg stage fs (mapUnits.map (·.fragments) ++ reduceUnits.map (·.fragments)) }

namespace Compilation

variable {c : Compilation} {arrival : Arrival} {options : CompilerOptions}

/-! ## Runs without errors -/

def planning : List Pass :=
  [.validate, .inlineFlowParts, .insertCheckpoints, .insertIdentities, .splitIdentities,
    .reduceIdentities, .buildStageGraph, .analyzeShuffle]

theorem required_analyzeStages : Pass.analyzeStages.required = planning ++ [.analyzeStages] :=
  Pass.required_eq .analyzeStages

section Stages

variable {g : FlowGraph} {processors : ProcessorRegistry} {dataClasses : DataClassRegistry}

theorem stageGraph_planning (arrival : Arrival) (options : CompilerOptions) (g : FlowGraph)
    (processors : ProcessorRegistry) (dataClasses : DataClassRegistry) :
    (planning.foldl (next arrival options) (start g processors dataClasses)).stageGraph
        = some (StageGraph.plan g.normalize.1).1 ∧
      (planning.foldl (next arrival options) (start g processors dataClasses)).processors
        = processors := by
  simp only [planning, List.foldl_cons, List.foldl_nil, graph_next, stageGraph_next,
    processors_next, runPass, applyStep, start, FlowGraph.normalize_eq, and_self]

theorem runPass_analyzeStages {sg : StageGraph} (hsg : c.stageGraph = some sg) :
    c.runPass arrival options .analyzeStages =
      let models := analyzeAll (options.arrival arrival)
        (fun (stage, i) => analyzeStage sg stage ((c.shuffles[i]?).getD none) c.processors)
        sg.stages
      ({ c with stageModels := models.1 }, models.2) := by
  simp only [runPass, hsg]

theorem faults_eq_nil_of_run
    (hrun : (runWith arrival options .analyzeStages (start g processors dataClasses)).failure
      = none) : g.faults = [] := by
  rw [runWith, required_analyzeStages] at hrun
  have hvalidate := (runPasses_of_no_failure hrun).2 [] .validate _ rfl
  rw [List.eq_nil_iff_forall_not_mem]
  intro fault hfault
  have herror := hvalidate fault.diagnostic (List.mem_map.2 ⟨fault, hfault, rfl⟩)
  cases fault <;> cases herror

theorem analyzeStage_of_served {sg : StageGraph} {stage : Stage} {shuffle : Option ShuffleModel}
    (h : StageModel.unserved sg stage processors = []) :
    analyzeStage sg stage shuffle processors
      = (some (StageModel.ofStage sg stage shuffle processors), []) := by
  simp only [analyzeStage, h]
  rfl

theorem eq_ofStage_of_analyzeStage {sg : StageGraph} {stage : Stage}
    {shuffle : Option ShuffleModel} {m : StageModel}
    (h : (analyzeStage sg stage shuffle processors).1 = some m) :
    m = StageModel.ofStage sg stage shuffle processors := by
  rw [analyzeStage] at h
  split at h
  · exact (Option.some.inj h).symm
  · cases h

/-- A stage whose analysis reports no error has all its processors, and a model. -/
theorem analyzeStage_of_no_error {sg : StageGraph} {stage : Stage} {shuffle : Option ShuffleModel}
    (h : ∀ d ∈ (analyzeStage sg stage shuffle processors).2, d.isError = false) :
    (analyzeStage sg stage shuffle processors).1
      = some (StageModel.ofStage sg stage shuffle processors) := by
  cases hus : StageModel.unserved sg stage processors with
  | nil => rw [analyzeStage_of_served hus]
  | cons u us =>
    simp only [analyzeStage, hus] at h
    have herror := h u.diagnostic List.mem_cons_self
    cases herror

/-- The stages of a run without errors all have models. -/
theorem exists_shuffles_of_run
    (hrun : (runWith arrival options .analyzeStages (start g processors dataClasses)).failure
      = none) :
    let sg := (StageGraph.plan g.normalize.1).1
    let c := (runWith arrival options .analyzeStages (start g processors dataClasses)).result
    c.stageGraph = some sg ∧ ∃ shuffles : Nat → Option ShuffleModel,
      c.stageModels = sg.stages.zipIdx.map fun (stage, i) =>
        some (StageModel.ofStage sg stage (shuffles i) processors) := by
  intro sg
  rw [runWith, required_analyzeStages] at hrun ⊢
  obtain ⟨hresult, hnone⟩ := runPasses_of_no_failure hrun
  obtain ⟨hsg, hprocessors⟩ := stageGraph_planning arrival options g processors dataClasses
  have hlast := hnone planning .analyzeStages [] rfl
  rw [runPass_analyzeStages hsg, hprocessors] at hlast
  rw [hresult, List.foldl_append, List.foldl_cons, List.foldl_nil, next,
    runPass_analyzeStages hsg, hprocessors]
  refine ⟨hsg, fun i => (((planning.foldl (next arrival options)
    (start g processors dataClasses)).shuffles[i]?).getD none), ?_⟩
  simp only [record, analyzeAll, List.map_map]
  refine List.map_congr_left fun place hplace => ?_
  exact analyzeStage_of_no_error fun d hd => hlast d (mem_analyzeAll.2 ⟨place, hplace, hd⟩)

/-- The models of a run without errors are made of the fragments of the blocks. -/
theorem stageModels_of_run
    (hrun : (runWith arrival options .analyzeStages (start g processors dataClasses)).failure
      = none) :
    let sg := (StageGraph.plan g.normalize.1).1
    let c := (runWith arrival options .analyzeStages (start g processors dataClasses)).result
    c.stageGraph = some sg ∧ ∃ models : List StageModel, c.stageModels = models.map some ∧
      models.map (·.fragments)
        = sg.stages.map fun stage => (StageModel.fragmentsOf sg stage processors).list := by
  intro sg c
  obtain ⟨hsg, shuffles, hmodels⟩ := exists_shuffles_of_run hrun
  refine ⟨hsg, sg.stages.zipIdx.map fun place =>
    StageModel.ofStage sg place.1 (shuffles place.2) processors, ?_, ?_⟩
  · rw [List.map_map]
    exact hmodels
  · conv => rhs; rw [← List.zipIdx_map_fst 0 sg.stages]
    rw [List.map_map, List.map_map]
    rfl

end Stages

/-! ## Operators -/

theorem mem_normalize_iff {g : FlowGraph} (h : g.WellFormed) {x : Element}
    (hp : x.isPseudo = false) : x ∈ g.normalize.1.elements ↔ x ∈ g.flatten.1.elements :=
  have hflat := (FlowGraph.flatten_wellFormed h).coherent
  ((FlowGraph.normalize_rewrites hflat).induction
    (P := fun k => x ∈ k.elements ↔ x ∈ g.flatten.1.elements)
    (fun _ _ hk hs hiff => (hs.mem_iff hk hp).trans hiff) hflat Iff.rfl).2

/-- The operators at all depths are those of the normal form. -/
theorem operators_perm {g : FlowGraph} (h : g.WellFormed) :
    ((g.normalize.1.elements.filter (·.operator?.isSome)).map (·.unit)).Perm
      ((g.units.filter (·.decl.kind.operator?.isSome)).map (NetUnit.map g.place)) := by
  have hsame : (g.normalize.1.elements.filter (·.operator?.isSome)).Perm
      (g.flatten.1.elements.filter (·.operator?.isSome)) := by
    refine (List.perm_ext_iff_of_nodup
      ((FlowGraph.normalize_wellFormed h).coherent.elements_nodup.filter _)
      ((FlowGraph.flatten_wellFormed h).coherent.elements_nodup.filter _)).2 fun x => ?_
    rw [List.mem_filter, List.mem_filter]
    refine and_congr_left fun hop => mem_normalize_iff h ?_
    rw [← Bool.not_eq_true, Element.isPseudo_iff]
    intro hk
    rw [Element.operator?, hk] at hop
    cases hop
  have hunits := (FlowGraph.units_flatten h).filter (·.decl.kind.operator?.isSome)
  rw [List.filter_map, List.filter_map] at hunits
  exact (hsame.map _).trans hunits

/-! ## Coverage -/

/-- Where a run reports no error, every stage has a model; their fragments hold each element that is
not materialized once and nothing else; and the operators among them are those of the flow at all
depths. -/
theorem run_covers_elements {g : FlowGraph} (h : g.WellFormed) (arrival : Arrival)
    (options : CompilerOptions) (processors : ProcessorRegistry) (dataClasses : DataClassRegistry)
    (hrun : (runWith arrival options .analyzeStages (start g processors dataClasses)).failure
      = none) :
    let c := (runWith arrival options .analyzeStages (start g processors dataClasses)).result
    (∃ models : List StageModel, c.stageModels = models.map some ∧
      (models.flatMap fun m => m.fragments.flatMap (·.elements)).Perm
        (c.flowGraph.idsWhere fun x => !x.isStageBoundary)) ∧
      c.flowGraph.elementIds.Nodup ∧
      ((c.flowGraph.elements.filter (·.operator?.isSome)).map (·.unit)).Perm
        ((g.units.filter (·.decl.kind.operator?.isSome)).map (NetUnit.map g.place)) := by
  obtain ⟨hsg, models, hmodels, hfragments⟩ := stageModels_of_run hrun
  have hnormal := (FlowGraph.normalize_wellFormed h).coherent
  have hflow : (runWith arrival options .analyzeStages
      (start g processors dataClasses)).result.flowGraph = g.normalize.1 := by
    simp only [flowGraph, hsg, StageGraph.plan]
  intro c
  rw [show c.flowGraph = g.normalize.1 from hflow]
  refine ⟨⟨models, hmodels, ?_⟩, hnormal.elementIds_nodup, operators_perm h⟩
  -- Chains cover a block only where no way through it comes back.
  obtain ⟨level, hlevel⟩ : ∃ level, g.normalize.1.IsLevelling level := by
    have hcycles := (List.append_eq_nil_iff.1 (faults_eq_nil_of_run hrun)).2
    exact FlowGraph.exists_levelling_normalize h (List.map_eq_nil_iff.1 hcycles)
  have hall := congrArg (List.flatMap fun fs => fs.flatMap (·.elements)) hfragments
  rw [List.flatMap_map, List.flatMap_map] at hall
  rw [hall]
  exact StageGraph.fragments_perm hnormal hlevel processors

/-- Two stages in a part of a part: one fans out, and the other is a chain. -/
def wrapped : FlowGraph :=
  let work (name : String) : ElementDecl :=
    .operator name { name, kind := "update", resources := [] } [.plain "in" "Record"]
      [.plain "out" "Record"] .none
  let stages : FlowGraph :=
    FlowGraph.assemble
      [.input "a" "Record", .input "b" "Record", work "m", work "m1", work "m2", work "n",
        work "n1", .output "c" "Record", .output "d" "Record"]
      [(0, 2), (3, 4), (3, 6), (5, 12), (7, 12), (1, 8), (9, 10), (11, 13)]
  let around (name : String) (inner : FlowGraph) : FlowGraph :=
    FlowGraph.assemble
      [.input "a" "Record", .input "b" "Record", .flowPart name inner, .output "c" "Record",
        .output "d" "Record"]
      [(0, 2), (1, 3), (4, 6), (5, 7)]
  around "p" (around "q" stages)

theorem wrapped_wellFormed : wrapped.WellFormed :=
  FlowGraph.assemble_wellFormed _ (by simp [FlowGraph.assemble_wellFormed])

def updateOnly : ProcessorRegistry := Catalog.ofList [{ name := "update", kind := .linePart }]

theorem wrapped_covered :
    let c := (runWith .inTurn .default .analyzeStages
      (start wrapped updateOnly Catalog.empty)).result
    wrapped.WellFormed ∧
      (runWith .inTurn .default .analyzeStages
        (start wrapped updateOnly Catalog.empty)).failure = none ∧
      (∃ models : List StageModel, c.stageModels = models.map some ∧
        (models.flatMap fun m => m.fragments.flatMap (·.elements)).Perm
          (c.flowGraph.idsWhere fun x => !x.isStageBoundary)) ∧
      c.flowGraph.elementIds.Nodup ∧
      ((c.flowGraph.elements.filter (·.operator?.isSome)).map (·.unit)).Perm
        ((wrapped.units.filter (·.decl.kind.operator?.isSome)).map
          (NetUnit.map wrapped.place)) := by
  have hrun : (runWith .inTurn .default .analyzeStages
      (start wrapped updateOnly Catalog.empty)).failure = none := by
    cbv
  exact ⟨wrapped_wellFormed, hrun, run_covers_elements wrapped_wellFormed .inTurn .default
    updateOnly Catalog.empty hrun⟩

end Compilation
end FlowPlan
