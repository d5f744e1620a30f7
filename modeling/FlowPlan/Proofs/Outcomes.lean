import FlowPlan.Proofs.Arrivals
import FlowPlan.Proofs.Coverage

/-!
What a compilation leaves behind, whether it succeeds or fails.

A compilation can end in three ways: every pass ran and was content, a pass up to the stage graph
failed and was the last to run, or an analysis failed and the passes after it ran all the same.
`IsConsistent` lists what can be relied on in each of them.  What is logged follows from the way in
which a run goes, and what is held from the passes that ran, which are always the first few:
`HasRun` says what each of them leaves to those behind it.  `failure_eq_none` is the way to a run
without errors: it asks for what the passes check, and not for the passes.
-/

namespace FlowPlan
namespace Compilation

variable {c c' : Compilation} {arrival : Arrival} {options : CompilerOptions}
  {processors : ProcessorRegistry} {dataClasses : DataClassRegistry}

/-! ## What the passes that ran leave -/

/-- The shuffles of all stages of a stage graph. -/
def shufflesOf (sg : StageGraph) (processors : ProcessorRegistry)
    (dataClasses : DataClassRegistry) : List (Option ShuffleModel) :=
  sg.stages.map fun stage => (FlowPlan.analyzeShuffle sg stage processors dataClasses).1

/-- The models of all stages of a stage graph. -/
def modelsOf (sg : StageGraph) (processors : ProcessorRegistry)
    (dataClasses : DataClassRegistry) : List (Option StageModel) :=
  sg.stages.map fun stage =>
    (analyzeStage sg stage (FlowPlan.analyzeShuffle sg stage processors dataClasses).1
      processors).1

/-- A compilation holds the results of the passes that ran, and the registries it began with. -/
structure HasRun (processors : ProcessorRegistry) (dataClasses : DataClassRegistry)
    (ran : List Pass) (c : Compilation) : Prop where
  registries : c.processors = processors ∧ c.dataClasses = dataClasses
  planned : c.stageGraph.isSome ↔ .buildStageGraph ∈ ran
  shuffled : .analyzeShuffle ∈ ran → ∃ sg, c.stageGraph = some sg ∧
    c.shuffles = shufflesOf sg processors dataClasses
  modelled : .analyzeStages ∈ ran → ∃ sg, c.stageGraph = some sg ∧
    c.stageModels = modelsOf sg processors dataClasses

theorem hasRun_start (g : FlowGraph) (processors : ProcessorRegistry)
    (dataClasses : DataClassRegistry) :
    HasRun processors dataClasses [] (start g processors dataClasses) where
  registries := ⟨rfl, rfl⟩
  planned := by simp [start]
  shuffled := by simp
  modelled := by simp

theorem models_of_shuffles (sg : StageGraph) (processors : ProcessorRegistry)
    (dataClasses : DataClassRegistry) :
    (sg.stages.zipIdx.map fun (stage, i) => (analyzeStage sg stage
      (((shufflesOf sg processors dataClasses)[i]?).getD none) processors).1)
        = modelsOf sg processors dataClasses := by
  conv => rhs; rw [modelsOf, ← List.zipIdx_map_fst 0 sg.stages, List.map_map]
  refine List.map_congr_left fun ⟨stage, i⟩ hplace => ?_
  have hstage : sg.stages[i]? = some stage := List.mk_mem_zipIdx_iff_getElem?.1 hplace
  simp only [shufflesOf, List.getElem?_map, hstage, Option.map_some, Option.getD_some,
    Function.comp_apply]

namespace HasRun

variable {ran : List Pass} {p : Pass}

/-- A pass before the stage graph leaves what the others are about. -/
theorem keep (h : HasRun processors dataClasses ran c)
    (hp : p.rank < Pass.buildStageGraph.rank)
    (hregistries : c'.processors = c.processors ∧ c'.dataClasses = c.dataClasses)
    (hsg : c'.stageGraph = c.stageGraph) (hshuffles : c'.shuffles = c.shuffles)
    (hmodels : c'.stageModels = c.stageModels) :
    HasRun processors dataClasses (ran ++ [p]) c' := by
  have hold {q : Pass} (hq : Pass.buildStageGraph.rank ≤ q.rank) : q ∈ ran ++ [p] ↔ q ∈ ran := by
    rw [List.mem_append, List.mem_singleton, or_iff_left]
    rintro rfl
    exact Nat.not_lt.2 hq hp
  refine ⟨?_, ?_, ?_, ?_⟩
  · rw [hregistries.1, hregistries.2]
    exact h.registries
  · rw [hold (by decide), hsg]
    exact h.planned
  · rw [hold (by decide), hsg, hshuffles]
    exact h.shuffled
  · rw [hold (by decide), hsg, hmodels]
    exact h.modelled

theorem next (h : HasRun processors dataClasses ran c) (hinputs : ∀ q ∈ p.inputs, q ∈ ran)
    (hlate : ∀ q ∈ ran, q.rank < p.rank) :
    HasRun processors dataClasses (ran ++ [p]) (next arrival options c p) := by
  have hlater {q : Pass} (hq : p.rank < q.rank) : q ∉ ran ++ [p] := by
    rw [List.mem_append, List.mem_singleton]
    rintro (hmem | rfl)
    · exact Nat.lt_asymm hq (hlate q hmem)
    · exact Nat.lt_irrefl _ hq
  cases p with
  | buildStageGraph =>
    exact ⟨h.registries, iff_of_true rfl (by simp), fun hmem => absurd hmem (hlater (by decide)),
      fun hmem => absurd hmem (hlater (by decide))⟩
  | analyzeShuffle =>
    have hbuilt := hinputs .buildStageGraph (by decide)
    obtain ⟨sg, hsg⟩ := Option.isSome_iff_exists.1 (h.planned.2 hbuilt)
    simp only [Compilation.next, runPass, hsg, record, analyzeAll, List.map_map]
    refine ⟨h.registries, iff_of_true rfl (List.mem_append_left _ hbuilt), fun _ => ⟨sg, rfl, ?_⟩,
      fun hmem => absurd hmem (hlater (by decide))⟩
    conv => rhs; rw [shufflesOf, ← List.zipIdx_map_fst 0 sg.stages, List.map_map]
    rw [h.registries.1, h.registries.2]
    rfl
  | analyzeStages =>
    obtain ⟨sg, hsg, hshuffles⟩ := h.shuffled (hinputs .analyzeShuffle (by decide))
    have hbuilt := h.planned.1 (hsg ▸ rfl)
    simp only [Compilation.next, runPass, hsg, record, analyzeAll, List.map_map]
    refine ⟨h.registries, iff_of_true rfl (List.mem_append_left _ hbuilt),
      fun _ => ⟨sg, rfl, hshuffles⟩, fun _ => ⟨sg, rfl, ?_⟩⟩
    rw [hshuffles, h.registries.1, ← models_of_shuffles]
    rfl
  | _ => exact h.keep (by decide) ⟨rfl, rfl⟩ rfl rfl rfl

/-- What the first passes leave, by induction on how many there are. -/
theorem take (arrival : Arrival) (options : CompilerOptions) (g : FlowGraph)
    (processors : ProcessorRegistry) (dataClasses : DataClassRegistry) (n : Nat) :
    HasRun processors dataClasses (Pass.all.take n)
      ((Pass.all.take n).foldl (Compilation.next arrival options)
        (start g processors dataClasses)) := by
  induction n with
  | zero => exact hasRun_start g processors dataClasses
  | succ n ih =>
    rw [List.take_add_one]
    cases hp : Pass.all[n]? with
    | none => rwa [Option.toList_none, List.append_nil]
    | some p =>
      obtain rfl := Pass.getElem?_all.1 hp
      rw [Option.toList_some, List.foldl_append]
      exact ih.next (fun q hq => Pass.mem_take_all.2 (Pass.rank_lt_of_mem_inputs hq))
        fun q hq => Pass.mem_take_all.1 hq

end HasRun

/-! ## Outcomes -/

/-- An element of a stage's blocks that no processor runs. -/
def IsUnserved (sg : StageGraph) (stage : Stage) (processors : ProcessorRegistry) (e : Element) :
    Prop :=
  (∃ b ∈ stage.blocks, ∃ i ∈ sg.elementsOf b, sg.flow.element? i = some e) ∧
    ProcessorRegistry.resolve? processors e = none

theorem unserved_eq_nil_iff {sg : StageGraph} {stage : Stage} :
    StageModel.unserved sg stage processors = [] ↔ ¬ ∃ e, IsUnserved sg stage processors e := by
  rw [StageModel.unserved, List.filterMap_eq_nil_iff]
  constructor
  · intro hserved hsome
    obtain ⟨e, ⟨b, hb, i, hi, he⟩, hnone⟩ := hsome
    have hskipped := hserved e (List.mem_filterMap.2 ⟨i, List.mem_flatMap.2 ⟨b, hb, hi⟩, he⟩)
    simp only [hnone, reduceCtorEq] at hskipped
  · intro hnone e hmem
    obtain ⟨i, hi, he⟩ := List.mem_filterMap.1 hmem
    obtain ⟨b, hb, hib⟩ := List.mem_flatMap.1 hi
    cases hresolve : ProcessorRegistry.resolve? processors e with
    | none => exact absurd ⟨e, ⟨b, hb, i, hib, he⟩, hresolve⟩ hnone
    | some _ => rfl

/-- A stage has no model exactly if some element of its blocks has no processor. -/
theorem analyzeStage_eq_none_iff {sg : StageGraph} {stage : Stage}
    {shuffle : Option ShuffleModel} :
    (analyzeStage sg stage shuffle processors).1 = none ↔
      ∃ e, IsUnserved sg stage processors e := by
  rw [← not_iff_not, ← unserved_eq_nil_iff, analyzeStage]
  cases StageModel.unserved sg stage processors with
  | nil => exact iff_of_true (Option.some_ne_none _) rfl
  | cons u us => exact iff_of_false (fun h => h rfl) (List.cons_ne_nil u us)

/-- What comes of a compilation that starts from a flow graph. -/
structure IsConsistent (g : FlowGraph) (processors : ProcessorRegistry) (goal : Pass)
    (o : Outcome) : Prop where
  /-- The first few of the required passes run. -/
  passes : o.trace.map (·.1) <+: goal.required
  /-- No pass runs after an error up to the stage graph. -/
  stops : ∀ before entry after, o.trace = before ++ entry :: after → Stops entry → after = []
  /-- Nothing else keeps a required pass from running. -/
  complete : o.trace.map (·.1) = goal.required ∨ ∃ entry ∈ o.trace.getLast?, Stops entry
  diagnostics : o.result.diagnostics = o.trace.flatMap (·.2)
  hasError : o.result.hasError = true ↔ ∃ d ∈ o.result.diagnostics, d.isError = true
  fails : o.failure.isSome = o.result.hasError
  failure : o.failure = firstFailure? o.trace
  /-- A graph that does not validate stays as it is. -/
  unchanged : o.failure = some .validate → o.result.graph = g ∧ o.result.flowGraph = g
  planned : o.result.stageGraph.isSome ↔ .buildStageGraph ∈ o.trace.map (·.1)
  shuffles : .analyzeShuffle ∈ o.trace.map (·.1) → ∃ sg, o.result.stageGraph = some sg ∧
    o.result.shuffles.length = sg.stages.length
  stageModels : .analyzeStages ∈ o.trace.map (·.1) →
    ∃ sg : StageGraph, o.result.stageGraph = some sg ∧
      o.result.stageModels.length = sg.stages.length ∧
      ∀ (i : Nat) (stage : Stage), sg.stages[i]? = some stage →
        (o.result.stageModels[i]? = some none ↔ ∃ e, IsUnserved sg stage processors e)

/-- The passes of a trace are the first of all passes, and the compilation holds their results. -/
theorem hasRun_runWith (arrival : Arrival) (options : CompilerOptions) (goal : Pass)
    (g : FlowGraph) (processors : ProcessorRegistry) (dataClasses : DataClassRegistry) :
    let o := runWith arrival options goal (start g processors dataClasses)
    HasRun processors dataClasses (o.trace.map (·.1)) o.result := by
  intro o
  obtain ⟨hgoes, -⟩ := runPasses_goes arrival options (start g processors dataClasses) none
    goal.required
  have hfirst : o.trace.map (·.1) = Pass.all.take (o.trace.map (·.1)).length :=
    List.prefix_iff_eq_take.1 (hgoes.isPrefix.trans goal.required_prefix)
  have hresult : o.result = _ := hgoes.result_eq
  rw [hresult, show (runPasses arrival options (start g processors dataClasses) none
    goal.required).trace = o.trace from rfl, hfirst]
  exact HasRun.take arrival options g processors dataClasses _

/-- Whatever the graph, the registries, the options and the goal, what a compilation reports, what
it says of its failure and what it holds agree. -/
theorem run_consistent (arrival : Arrival) (options : CompilerOptions) (goal : Pass)
    (g : FlowGraph) (processors : ProcessorRegistry) (dataClasses : DataClassRegistry) :
    IsConsistent g processors goal
      (runWith arrival options goal (start g processors dataClasses)) := by
  have hran := hasRun_runWith arrival options goal g processors dataClasses
  obtain ⟨hgoes, hfailure⟩ := runPasses_goes arrival options (start g processors dataClasses) none
    goal.required
  obtain ⟨hdiagnostics, herror⟩ := hgoes.log_eq
  rw [Option.none_or] at hfailure
  exact {
    passes := hgoes.isPrefix
    stops := fun _ _ _ => hgoes.last_of_stops
    complete := hgoes.complete_or_stopped
    diagnostics := hdiagnostics
    hasError := by
      rw [runWith, herror, hdiagnostics, ← List.any_eq_true, start, Bool.false_or, List.nil_append,
        List.any_flatMap]
      rfl
    fails := by
      rw [runWith, hfailure, herror, firstFailure?, Option.isSome_map, List.isSome_find?, start,
        Bool.false_or]
    failure := hfailure
    unchanged := fun hinvalid => by
      have htrace := hgoes.trace_of_invalid goal.required_prefix
        (hfailure.symm.trans hinvalid)
      have hresult := hgoes.result_eq
      rw [htrace] at hresult
      rw [runWith, hresult]
      exact ⟨rfl, rfl⟩
    planned := hran.planned
    shuffles := fun hmem => by
      obtain ⟨sg, hsg, hshuffles⟩ := hran.shuffled hmem
      exact ⟨sg, hsg, by rw [hshuffles, shufflesOf, List.length_map]⟩
    stageModels := fun hmem => by
      obtain ⟨sg, hsg, hmodels⟩ := hran.modelled hmem
      refine ⟨sg, hsg, by rw [hmodels, modelsOf, List.length_map], fun i stage hstage => ?_⟩
      rw [hmodels, modelsOf, List.getElem?_map, hstage, Option.map_some, Option.some_inj,
        analyzeStage_eq_none_iff] }

/-! ## Runs that succeed -/

section Succeeds

variable {g : FlowGraph}

theorem hasRun_of_run
    (hrun : (runWith arrival options .analyzeStages (start g processors dataClasses)).failure
      = none) :
    HasRun processors dataClasses Pass.all
      (runWith arrival options .analyzeStages (start g processors dataClasses)).result := by
  rw [runWith, Pass.required_eq] at hrun ⊢
  rw [(runPasses_of_no_failure hrun).1]
  exact HasRun.take arrival options g processors dataClasses 9

/-- What the passes behind the stage graph are about. -/
theorem stageGraph_built (arrival : Arrival) (options : CompilerOptions) (g : FlowGraph)
    (processors : ProcessorRegistry) (dataClasses : DataClassRegistry) {p : Pass}
    (hp : Pass.buildStageGraph.rank < p.rank) :
    ((Pass.all.take p.rank).foldl (next arrival options)
      (start g processors dataClasses)).stageGraph = some (StageGraph.plan g.normalize.1).1 := by
  cases p with
  | analyzeShuffle =>
    simp only [Pass.rank, Pass.all, List.take_succ_cons, List.take_zero, List.foldl_cons,
      List.foldl_nil, graph_next, stageGraph_next, runPass, applyStep, start,
      FlowGraph.normalize_eq]
  | analyzeStages => exact (stageGraph_planning arrival options g processors dataClasses).1
  | _ => exact absurd hp (by decide)

theorem runPass_analyzeShuffle {c : Compilation} {sg : StageGraph}
    (hsg : c.stageGraph = some sg) :
    (c.runPass arrival options .analyzeShuffle).2 = (analyzeAll (options.arrival arrival)
      (fun (stage, _) => FlowPlan.analyzeShuffle sg stage c.processors c.dataClasses)
      sg.stages).2 := by
  simp only [runPass, hsg]

/-- Where a run reports no error, no shuffle has a fault. -/
theorem analyzeShuffle_of_run
    (hrun : (runWith arrival options .analyzeStages (start g processors dataClasses)).failure
      = none) :
    let sg := (StageGraph.plan g.normalize.1).1
    ∀ stage ∈ sg.stages, (FlowPlan.analyzeShuffle sg stage processors dataClasses).2 = [] := by
  intro sg stage hstage
  rw [runWith, Pass.required_eq] at hrun
  have hnone := (runPasses_of_no_failure hrun).2 (Pass.all.take Pass.analyzeShuffle.rank)
    .analyzeShuffle [.analyzeStages] rfl
  have hbefore := HasRun.take arrival options g processors dataClasses Pass.analyzeShuffle.rank
  have hsg := stageGraph_built arrival options g processors dataClasses
    (show Pass.buildStageGraph.rank < Pass.analyzeShuffle.rank by decide)
  rw [List.eq_nil_iff_forall_not_mem]
  intro d hd
  obtain ⟨place, hplace, rfl⟩ : ∃ place ∈ sg.stages.zipIdx, place.1 = stage := by
    rw [← List.zipIdx_map_fst 0 sg.stages] at hstage
    exact List.mem_map.1 hstage
  rw [runPass_analyzeShuffle hsg, hbefore.registries.1, hbefore.registries.2] at hnone
  have hquiet := hnone d (mem_analyzeAll.2 ⟨place, hplace, hd⟩)
  obtain ⟨x, code, message, -, rfl⟩ := analyzeShuffle_reports hd
  cases hquiet

theorem analyzeAll_quiet {α : Type} {analyze : Stage × Nat → α × List Diagnostic}
    {stages : List Stage} (h : ∀ place ∈ stages.zipIdx, (analyze place).2 = []) :
    (analyzeAll arrival analyze stages).2 = [] := by
  rw [List.eq_nil_iff_forall_not_mem]
  intro d hd
  obtain ⟨place, hplace, hmem⟩ := mem_analyzeAll.1 hd
  rw [h place hplace] at hmem
  cases hmem

/-- A flow is compiled without an error where it is valid, its normal form and its plan keep their
rules, and nothing is missing for any stage. -/
theorem failure_eq_none (hfaults : g.faults = [])
    (hnormal : g.normalize.1.normalFormCertificate.allPass = true)
    (hplan : (StageGraph.plan g.normalize.1).2 = [])
    (hcertificate : (StageGraph.plan g.normalize.1).1.certificate.allPass = true)
    (hstages : ∀ stage ∈ (StageGraph.plan g.normalize.1).1.stages,
      (FlowPlan.analyzeShuffle (StageGraph.plan g.normalize.1).1 stage processors
          dataClasses).2 = [] ∧
        StageModel.unserved (StageGraph.plan g.normalize.1).1 stage processors = []) :
    (runWith arrival options .analyzeStages (start g processors dataClasses)).failure = none := by
  have hkept (p : Pass) {certificate : Certificate} (h : certificate.allPass = true) :
      (if options.certify then certificateFaults p certificate else []) = [] := by
    rw [certificateFaults, if_pos h, ite_self]
  rw [runWith, Pass.required_eq]
  refine failure_of_quiet fun before p after heq => ?_
  have hall : before ++ p :: after = Pass.all := heq.symm
  have hbefore : before = Pass.all.take p.rank := by
    rw [← Pass.length_before hall, ← hall, List.take_left]
  have hran := HasRun.take arrival options g processors dataClasses p.rank
  rw [hbefore]
  cases p with
  | validate => exact List.map_eq_nil_iff.2 hfaults
  | reduceIdentities =>
    simp only [Pass.rank, Pass.all, List.take_succ_cons, List.take_zero, List.foldl_cons,
      List.foldl_nil, graph_next, runPass, applyStep, start]
    rw [← FlowGraph.normalize_eq]
    exact hkept _ hnormal
  | buildStageGraph =>
    simp only [Pass.rank, Pass.all, List.take_succ_cons, List.take_zero, List.foldl_cons,
      List.foldl_nil, graph_next, runPass, applyStep, start]
    rw [← FlowGraph.normalize_eq, hplan]
    exact hkept _ hcertificate
  | analyzeShuffle =>
    have hsg := stageGraph_built arrival options g processors dataClasses
      (show Pass.buildStageGraph.rank < Pass.analyzeShuffle.rank by decide)
    rw [runPass_analyzeShuffle hsg, hran.registries.1, hran.registries.2]
    exact analyzeAll_quiet fun place hplace =>
      (hstages place.1 (List.fst_mem_of_mem_zipIdx hplace)).1
  | analyzeStages =>
    have hsg := stageGraph_built arrival options g processors dataClasses
      (show Pass.buildStageGraph.rank < Pass.analyzeStages.rank by decide)
    rw [runPass_analyzeStages hsg, hran.registries.1]
    refine analyzeAll_quiet fun place hplace => ?_
    exact congrArg Prod.snd
      (analyzeStage_of_served (hstages place.1 (List.fst_mem_of_mem_zipIdx hplace)).2)
  | _ => rfl

end Succeeds

end Compilation
end FlowPlan
