import FlowPlan.Proofs.Passes
import FlowPlan.Proofs.Rewriting
import FlowPlan.Proofs.Routes
import Mathlib

/-!
What holds at every point of a compilation.

Whatever passes have run, and whatever they reported, the flow graph is well-formed, and a stage
graph is the plan of a well-formed flow graph.  So what is true of plans is true of the results of
compilations, for instance `run_connects_paths`.
-/

namespace FlowPlan
namespace Compilation

variable {c : Compilation} {arrival : Arrival} {options : CompilerOptions}

/-- Flow graph and plan of a compilation are as the passes rely on. -/
structure Sound (c : Compilation) : Prop where
  graph : c.graph.WellFormed
  plan : ∀ sg, c.stageGraph = some sg → ∃ g, FlowGraph.WellFormed g ∧ sg = (StageGraph.plan g).1

theorem start_sound {g : FlowGraph} (h : g.WellFormed) (processors : ProcessorRegistry)
    (dataClasses : DataClassRegistry) : (start g processors dataClasses).Sound :=
  ⟨h, fun _ hsg => by cases hsg⟩

theorem applyStep_sound (h : c.Sound) {step : FlowGraph → FlowGraph × Nat}
    (hstep : ∀ g, g.WellFormed → (step g).1.WellFormed)
    (count : NormalizationCounts → Nat → NormalizationCounts) : (c.applyStep step count).Sound :=
  ⟨hstep _ h.graph, h.plan⟩

theorem runPass_sound (h : c.Sound) (arrival : Arrival) (options : CompilerOptions) (p : Pass) :
    (c.runPass arrival options p).1.Sound := by
  cases p <;> simp only [runPass]
  case validate => exact h
  case inlineFlowParts =>
    exact applyStep_sound h (fun _ hg => FlowGraph.flatten_wellFormed hg) _
  case insertCheckpoints =>
    exact applyStep_sound h
      (fun _ hg => (FlowGraph.insertCheckpoints_rewrites hg.coherent).wellFormed hg) _
  case insertIdentities =>
    exact applyStep_sound h
      (fun _ hg => (FlowGraph.insertIdentities_rewrites hg.coherent).wellFormed hg) _
  case splitIdentities =>
    exact applyStep_sound h
      (fun _ hg => (FlowGraph.splitIdentities_rewrites hg.coherent).wellFormed hg) _
  case reduceIdentities =>
    exact applyStep_sound h
      (fun _ hg => (FlowGraph.reduceIdentities_rewrites hg.coherent).wellFormed hg) _
  case buildStageGraph =>
    refine ⟨FlowGraph.empty_wellFormed, fun sg hsg => ⟨c.graph, h.graph, ?_⟩⟩
    exact (Option.some.inj hsg).symm
  case analyzeShuffle =>
    split
    · exact ⟨h.graph, h.plan⟩
    · exact ⟨h.graph, h.plan⟩
  case analyzeStages =>
    split
    · exact ⟨h.graph, h.plan⟩
    · exact ⟨h.graph, h.plan⟩

theorem record_sound (h : c.Sound) (ds : List Diagnostic) : (c.record ds).Sound :=
  ⟨h.graph, h.plan⟩

theorem runPasses_sound (h : c.Sound) (failure : Option Pass) (ps : List Pass) :
    (runPasses arrival options c failure ps).result.Sound :=
  (runPasses_goes arrival options c failure ps).1.keeps
    (fun _ p hc => record_sound (runPass_sound hc arrival options p) _) h

theorem runWith_sound (h : c.Sound) (goal : Pass) :
    (runWith arrival options goal c).result.Sound := runPasses_sound h none _

/-! ## Plans of compilations -/

theorem required_buildStageGraph :
    Pass.buildStageGraph.required = [.validate, .inlineFlowParts, .insertCheckpoints,
      .insertIdentities, .splitIdentities, .reduceIdentities, .buildStageGraph] :=
  Pass.required_eq .buildStageGraph

/-- A pass that reports nothing hands its result on. -/
theorem result_runPasses_cons {p : Pass} (hp : (c.runPass arrival options p).2 = [])
    (failure : Option Pass) (ps : List Pass) :
    (runPasses arrival options c failure (p :: ps)).result
      = (runPasses arrival options (c.runPass arrival options p).1 failure ps).result := by
  simp [runPasses, hp, record]

/-- The result of the last pass counts whether it fails or not. -/
theorem result_runPasses_singleton (failure : Option Pass) (p : Pass) :
    (runPasses arrival options c failure [p]).result
      = (c.runPass arrival options p).1.record (c.runPass arrival options p).2 := by
  simp only [runPasses]
  split
  · rfl
  · rfl

theorem runPass_reduceIdentities_snd
    (h : c.graph.reduceIdentities.1.normalFormCertificate.allPass = true) :
    (c.runPass arrival options .reduceIdentities).2 = [] := by
  simp only [runPass, applyStep]
  rw [certificateFaults, if_pos h, ite_self]

/-- A legal graph with a certified normal form is planned, and only the plan can be at fault. -/
theorem result_of_run {g : FlowGraph} (arrival : Arrival) (options : CompilerOptions)
    (hlegal : g.isLegal = true) (hnormal : g.normalize.1.normalFormCertificate.allPass = true)
    (processors : ProcessorRegistry) (dataClasses : DataClassRegistry) :
    (runWith arrival options .buildStageGraph (start g processors dataClasses)).result.stageGraph
        = some (StageGraph.plan g.normalize.1).1 ∧
      (runWith arrival options .buildStageGraph (start g processors dataClasses)).result.diagnostics
        = (StageGraph.plan g.normalize.1).2.map (·.diagnostic) ++
          if options.certify then
            certificateFaults .buildStageGraph (StageGraph.plan g.normalize.1).1.certificate
          else [] := by
  have hfaults : g.faults = [] := List.isEmpty_iff.1 hlegal
  rw [FlowGraph.normalize_eq] at hnormal ⊢
  have hvalidate : ((start g processors dataClasses).runPass arrival options .validate).2 = [] :=
    List.map_eq_nil_iff.2 hfaults
  rw [runWith, required_buildStageGraph, result_runPasses_cons hvalidate]
  iterate 4 rw [result_runPasses_cons rfl]
  rw [result_runPasses_cons, result_runPasses_singleton]
  · simp only [runPass, applyStep, record, start, List.nil_append, and_self]
  · refine runPass_reduceIdentities_snd ?_
    simpa only [runPass, applyStep, start] using hnormal

/-- Between elements that are no checkpoints, the block connections of a compiled flow are the paths
through checkpoints, apart from those that lead back into their block. -/
theorem run_connects_paths {g : FlowGraph} (h : g.WellFormed) (arrival : Arrival)
    (options : CompilerOptions) (goal : Pass) (processors : ProcessorRegistry)
    (dataClasses : DataClassRegistry) {sg : StageGraph}
    (hsg : (runWith arrival options goal (start g processors dataClasses)).result.stageGraph
      = some sg) {x y : Element} {u d : PortId} (hx : x ∈ sg.flow.elements)
    (hy : y ∈ sg.flow.elements) (hxc : x.isCheckpoint = false) (hyc : y.isCheckpoint = false)
    (hu : u ∈ x.outputIds) (hd : d ∈ y.inputIds) :
    ⟨u, d⟩ ∈ sg.connections ↔ sg.flow.Carries (·.isCheckpoint = true) u d ∧
      ¬ ∃ b ∈ sg.blocks, x.id ∈ b.elements ∧ y.id ∈ b.elements := by
  obtain ⟨k, hk, rfl⟩ := (runWith_sound (start_sound h processors dataClasses) goal).plan sg hsg
  exact StageGraph.mem_connections_plan hk.coherent hx hy hxc hyc hu hd

/-- Two ways from one operator to another, one of them through an operator that begins a stage. -/
def detour : FlowGraph :=
  let desc (name kind : String) : OperatorDesc := { name, kind, resources := [] }
  FlowGraph.assemble
    [.input "in" "Record",
      .operator "a" (desc "a" "update") [.plain "in" "Record"] [.plain "out" "Record"] .none,
      .operator "b" (desc "b" "update") [.plain "in" "Record"] [.plain "out" "Record"] .stage,
      .operator "c" (desc "c" "confluent") [.plain "l" "Record", .plain "r" "Record"]
        [.plain "out" "Record"] .none,
      .output "out" "Record"]
    [(0, 1), (2, 3), (2, 5), (4, 6), (7, 8)]

theorem detour_wellFormed : detour.WellFormed :=
  FlowGraph.assemble_wellFormed _ (by simp)

set_option maxRecDepth 10000 in
theorem detour_isLegal : detour.isLegal = true ∧
    detour.normalize.1.normalFormCertificate.allPass = true := by
  decide +kernel

set_option maxRecDepth 10000 in
theorem detour_connects : detour.WellFormed ∧
    (runWith .inTurn .default .buildStageGraph
      (start detour .builtins Catalog.empty)).result.stageGraph
        = some (StageGraph.plan detour.normalize.1).1 ∧
    ⟨0, 1⟩ ∈ (StageGraph.plan detour.normalize.1).1.connections := by
  have hsg := (result_of_run .inTurn .default detour_isLegal.1 detour_isLegal.2 .builtins
    Catalog.empty).1
  have hends : (detour.normalize.1.elements.any fun x =>
        !x.isCheckpoint && x.id == 0 && x.outputIds == [0]) = true ∧
      (detour.normalize.1.elements.any fun y =>
        !y.isCheckpoint && y.id == 1 && y.inputIds == [1]) = true ∧
      ⟨0, 1⟩ ∈ detour.normalize.1.connections := by
    decide +kernel
  have happart : ¬ ∃ b ∈ (StageGraph.plan detour.normalize.1).1.blocks,
      0 ∈ b.elements ∧ 1 ∈ b.elements := by
    decide +kernel
  simp only [List.any_eq_true, Bool.and_eq_true, Bool.not_eq_true', beq_iff_eq] at hends
  obtain ⟨⟨x, hx, ⟨hxc, hxid⟩, hu⟩, ⟨y, hy, ⟨hyc, hyid⟩, hd⟩, hc⟩ := hends
  refine ⟨detour_wellFormed, hsg, ?_⟩
  refine (run_connects_paths detour_wellFormed .inTurn .default .buildStageGraph .builtins
    Catalog.empty hsg hx hy hxc hyc (u := 0) (d := 1) (by simp [hu]) (by simp [hd])).2
    ⟨.direct hc, ?_⟩
  rw [hxid, hyid]
  exact happart

set_option maxRecDepth 10000 in
theorem detour_unlinked :
    let c := (runWith .inTurn .default .buildStageGraph
      (start detour .builtins Catalog.empty)).result
    c.stageGraph = some (StageGraph.plan detour.normalize.1).1 ∧ c.diagnostics = [] ∧
      detour.normalize.1.Carries (·.isCheckpoint = true) 2 3 ∧
      ⟨2, 3⟩ ∉ (StageGraph.plan detour.normalize.1).1.connections := by
  obtain ⟨hsg, hds⟩ := result_of_run .inTurn .default detour_isLegal.1 detour_isLegal.2 .builtins
    Catalog.empty
  refine ⟨hsg, ?_, ?_, ?_⟩
  · have hdefects : (StageGraph.plan detour.normalize.1).2 = [] := by cbv
    have hpass : (StageGraph.plan detour.normalize.1).1.certificate.allPass = true := by cbv
    rw [hds, hdefects, certificateFaults, if_pos hpass, ite_self]
    rfl
  · have hcheck : (detour.normalize.1.elements.any fun e =>
          e.isCheckpoint && e.inputIds == [9] && e.outputIds == [10]) = true ∧
        ⟨2, 9⟩ ∈ detour.normalize.1.connections ∧ ⟨10, 3⟩ ∈ detour.normalize.1.connections := by
      decide +kernel
    simp only [List.any_eq_true, Bool.and_eq_true, beq_iff_eq] at hcheck
    obtain ⟨⟨e, he, ⟨hec, hin⟩, hout⟩, hfirst, hlast⟩ := hcheck
    exact .through hfirst he hec (by rw [hin]; exact List.mem_singleton_self 9)
      (by rw [hout]; exact List.mem_singleton_self 10) (.direct hlast)
  · have hnone : (StageGraph.plan detour.normalize.1).1.connections.contains ⟨2, 3⟩ = false := by
      cbv
    rwa [← Bool.not_eq_true, List.contains_iff_mem] at hnone

end Compilation
end FlowPlan
