import FlowPlan.Compilation.Pass
import FlowPlan.Legality
import FlowPlan.NormalForm
import FlowPlan.PlanReport
import FlowPlan.StageGraph.Stages

/-!
Compilations: a flow graph on its way to stage models.

A compilation runs the passes that its goal requires.  An error in a pass up to the stage graph
stops it; the two analyses look at every stage first and report what they found in an order that
does not depend on which stage was looked at when.
-/

namespace FlowPlan

/-- Choices about how to compile that do not change the result. -/
structure CompilerOptions where
  /-- Stages may be analyzed at the same time. -/
  parallel : Bool
  /-- The certificates of passes are checked. -/
  certify : Bool
deriving DecidableEq, Repr

namespace CompilerOptions

def default : CompilerOptions := { parallel := true, certify := true }

end CompilerOptions

/-- A way in which the diagnostics of stages that are analyzed at the same time arrive: each once,
in some order. -/
structure Arrival where
  collect : List (List Diagnostic) → List Diagnostic
  complete : ∀ ds, (collect ds).Perm ds.flatten

namespace Arrival

/-- One stage after the other. -/
def inTurn : Arrival := ⟨List.flatten, fun _ => List.Perm.refl _⟩

end Arrival

/-- Diagnostics arrive in turn unless stages may be analyzed at the same time. -/
def CompilerOptions.arrival (options : CompilerOptions) (arrival : Arrival) : Arrival :=
  if options.parallel then arrival else .inTurn

structure Compilation where
  processors : ProcessorRegistry
  dataClasses : DataClassRegistry
  /-- The flow graph before there is a stage graph, which takes it over. -/
  graph : FlowGraph
  counts : NormalizationCounts
  stageGraph : Option StageGraph
  /-- One entry for each stage, once the shuffles are analyzed. -/
  shuffles : List (Option ShuffleModel)
  /-- One entry for each stage, once the stages are analyzed. -/
  stageModels : List (Option StageModel)
  diagnostics : List Diagnostic
  hasError : Bool

namespace Compilation

def start (graph : FlowGraph) (processors : ProcessorRegistry) (dataClasses : DataClassRegistry) :
    Compilation :=
  { processors, dataClasses, graph, counts := .zero, stageGraph := none, shuffles := [],
    stageModels := [], diagnostics := [], hasError := false }

/-- The flow graph as it is at this point. -/
def flowGraph (c : Compilation) : FlowGraph :=
  match c.stageGraph with
  | some sg => sg.flow
  | none => c.graph

/-! ## Diagnostics of a pass -/

/-- The error that a pass whose certificate fails is. -/
def certificateFaults (pass : Pass) (certificate : Certificate) : List Diagnostic :=
  if certificate.allPass then []
  else
    [{ code := some .failedCertificate, severity := .error, element := none,
       message := s!"{pass.name} verification failed: "
         ++ String.intercalate ", " certificate.failures,
       hint := some "this is a compiler defect; please report it with the flow manifest" }]

/-- Absent values come before present ones. -/
def compareOptions {α : Type} (compare : α → α → Ordering) : Option α → Option α → Ordering
  | none, none => .eq
  | none, some _ => .lt
  | some _, none => .gt
  | some a, some b => compare a b

def compareTexts (a b : String) : Ordering :=
  if a < b then .lt else if a = b then .eq else .gt

/-- By element, then by code, then by message. -/
def compareDiagnostics (a b : Diagnostic) : Ordering :=
  ((compareOptions compare (a.element.map (·.id)) (b.element.map (·.id))).then
    (compareOptions compareTexts (a.code.map (·.text)) (b.code.map (·.text)))).then
    (compareTexts a.message b.message)

def sortDiagnostics (ds : List Diagnostic) : List Diagnostic :=
  ds.mergeSort fun a b => compareDiagnostics a b ≠ .gt

/-! ## Passes -/

def applyStep (c : Compilation) (step : FlowGraph → FlowGraph × Nat)
    (count : NormalizationCounts → Nat → NormalizationCounts) : Compilation :=
  let (graph, n) := step c.graph
  { c with graph, counts := count c.counts n }

/-- Analyze every stage; the results keep the order of the stages, and the diagnostics are put into
an order of their own. -/
def analyzeAll {α : Type} (arrival : Arrival) (analyze : Stage × Nat → α × List Diagnostic)
    (stages : List Stage) : List α × List Diagnostic :=
  let results := stages.zipIdx.map analyze
  (results.map (·.1), sortDiagnostics (arrival.collect (results.map (·.2))))

/-- One pass, with the diagnostics that it reports. -/
def runPass (arrival : Arrival) (options : CompilerOptions) (c : Compilation) :
    Pass → Compilation × List Diagnostic
  | .validate => (c, c.graph.faults.map (·.diagnostic))
  | .inlineFlowParts =>
    (c.applyStep FlowGraph.flatten fun s n => { s with partsInlined := n }, [])
  | .insertCheckpoints =>
    (c.applyStep FlowGraph.insertCheckpoints fun s n => { s with checkpointsInserted := n }, [])
  | .insertIdentities =>
    (c.applyStep FlowGraph.insertIdentities fun s n => { s with identitiesInserted := n }, [])
  | .splitIdentities =>
    (c.applyStep FlowGraph.splitIdentities fun s n => { s with identitiesSplit := n }, [])
  | .reduceIdentities =>
    let c := c.applyStep FlowGraph.reduceIdentities fun s n => { s with identitiesRemoved := n }
    (c, if options.certify then
          certificateFaults .reduceIdentities c.graph.normalFormCertificate
        else [])
  | .buildStageGraph =>
    let (sg, defects) := StageGraph.plan c.graph
    ({ c with graph := .empty, stageGraph := some sg },
      defects.map (·.diagnostic) ++
        if options.certify then certificateFaults .buildStageGraph sg.certificate else [])
  | .analyzeShuffle =>
    match c.stageGraph with
    | none => ({ c with shuffles := [] }, [])
    | some sg =>
      let (shuffles, ds) := analyzeAll (options.arrival arrival)
        (fun (stage, _) => FlowPlan.analyzeShuffle sg stage c.processors c.dataClasses) sg.stages
      ({ c with shuffles }, ds)
  | .analyzeStages =>
    match c.stageGraph with
    | none => ({ c with stageModels := [] }, [])
    | some sg =>
      let (stageModels, ds) := analyzeAll (options.arrival arrival)
        (fun (stage, i) => analyzeStage sg stage ((c.shuffles[i]?).getD none) c.processors)
        sg.stages
      ({ c with stageModels }, ds)

/-- A pass whose errors do not stop the compilation. -/
def isDeferring : Pass → Bool
  | .analyzeShuffle => true
  | .analyzeStages => true
  | _ => false

/-- What came of a compilation. -/
structure Outcome where
  result : Compilation
  /-- The passes that ran, with their diagnostics. -/
  trace : List (Pass × List Diagnostic)
  /-- The first pass that reported an error. -/
  failure : Option Pass

/-- Note what a pass reported. -/
def record (c : Compilation) (ds : List Diagnostic) : Compilation :=
  { c with diagnostics := c.diagnostics ++ ds, hasError := c.hasError || ds.any (·.isError) }

/-- Run passes in turn, with the first error so far. -/
def runPasses (arrival : Arrival) (options : CompilerOptions) (c : Compilation)
    (failure : Option Pass) : List Pass → Outcome
  | [] => { result := c, trace := [], failure }
  | p :: ps =>
    let (c, ds) := c.runPass arrival options p
    let c := c.record ds
    let failed := ds.any (·.isError)
    let failure := failure.or (if failed then some p else none)
    if failed && !isDeferring p then { result := c, trace := [(p, ds)], failure }
    else
      let rest := runPasses arrival options c failure ps
      { rest with trace := (p, ds) :: rest.trace }

/-- Run the passes that lead up to a goal, for some way in which diagnostics arrive. -/
def runWith (arrival : Arrival) (options : CompilerOptions) (goal : Pass) (c : Compilation) :
    Outcome :=
  runPasses arrival options c none goal.required

/-- Run the passes that lead up to a goal. -/
def run (options : CompilerOptions) (goal : Pass) (c : Compilation) : Outcome :=
  runWith .inTurn options goal c

/-- What a failed compilation is reported as. -/
def failureMessage (p : Pass) : String := s!"compilation failed in pass `{p.name}`"

/-- The report of the plan, once there is a stage graph. -/
def report? (c : Compilation) : Option String :=
  c.stageGraph.map fun sg => PlanReport.text sg c.shuffles c.stageModels

end Compilation
end FlowPlan
