import FlowPlan.Command.Arguments
import FlowPlan.Command.Files
import FlowPlan.Diagram.Plan
import FlowPlan.Manifest
import FlowPlan.Provenance

/-!
The command: reads a manifest and writes a plan, a diagram or a build record.

It ends with 0 when the result was written, with 1 when the flow cannot be compiled, and with 2 when
the command line or a file is at fault.
-/

namespace FlowPlan
namespace Command

/-- The name under which the command speaks. -/
def programName : String := "flowc"

/-- What the command says on its two channels, and its exit code. -/
structure Response where
  code : Nat
  out : String
  err : String
deriving DecidableEq, Repr

namespace Response

def success (out err : String) : Response := { code := 0, out, err }

def failure (code : Nat) (err : String) : Response := { code, out := "", err }

end Response

def note (text : String) : String := s!"{programName}: {text}\n"

def complaint (text : String) : String := note s!"error: {text}"

def versionText : String := s!"{programName} {Provenance.compilerVersion}\n"

def usageText : String :=
  s!"Usage: {programName} [OPTIONS] <MANIFEST>\n\n"
    ++ "Options:\n"
    ++ "      --processors <FILE>  Additional processor registry, repeatable\n"
    ++ "      --emit <WHAT>        plan, flow-dot, stage-dot or build-info\n"
    ++ "  -o, --output <FILE>      Where to write, standard output if omitted\n"
    ++ "      --sequential         Analyze one stage after the other\n"
    ++ "      --verbose            Print the passes\n"
    ++ "  -h, --help               Print help\n"
    ++ "  -V, --version            Print version\n"

/-- What can stand in the way of a compilation. -/
inductive Obstacle
  | file (path : String) (error : FileError)
  | manifest (error : ManifestError)
  | registry (error : RegistryError)
deriving DecidableEq, Repr

namespace Obstacle

def message : Obstacle → String
  | file path error => s!"{path}: {error.message}"
  | manifest error => error.message
  | registry error => error.message

end Obstacle

/-- Everything that was read. -/
structure Inputs where
  source : String
  manifest : Manifest
  processors : ProcessorRegistry

section

variable {m : Type → Type} [Monad m]

def readManifest (files : Files m) (path : String) : m (Except Obstacle Inputs) := do
  match ← files.read path with
  | .error e => return .error (.file path e)
  | .ok source =>
    match Manifest.parse source with
    | .error e => return .error (.manifest e)
    | .ok manifest => return .ok { source, manifest, processors := manifest.processors }

/-- Add the processors of each file in turn. -/
def readProcessors (files : Files m) (r : ProcessorRegistry) :
    List String → m (Except Obstacle ProcessorRegistry)
  | [] => return .ok r
  | path :: paths => do
    match ← files.read path with
    | .error e => return .error (.file path e)
    | .ok source =>
      match ProcessorRegistry.load r source with
      | (r, .ok _) => readProcessors files r paths
      | (_, .error e) => return .error (.registry e)

def readInputs (files : Files m) (a : Arguments) : m (Except Obstacle Inputs) := do
  match ← readManifest files a.manifest with
  | .error e => return .error e
  | .ok inputs =>
    match ← readProcessors files inputs.processors a.processors with
    | .error e => return .error e
    | .ok processors => return .ok { inputs with processors }

end

/-- The last pass that a result needs, if it needs any. -/
def goal? : Emit → Option Pass
  | .plan => some .analyzeStages
  | .flowDot => some .reduceIdentities
  | .stageDot => some .buildStageGraph
  | .buildInfo => none

/-- The text of a result. -/
def render (emit : Emit) (inputs : Inputs) (c : Compilation) : Option String :=
  match emit with
  | .plan => c.report?
  | .flowDot => some c.flowGraph.diagram
  | .stageDot => c.stageGraph.map (·.diagram)
  | .buildInfo =>
    some (Provenance.compute inputs.source inputs.processors inputs.manifest.dataClasses).toJson

/-- The log of the passes, for those who ask for it. -/
def passLog (verbose : Bool) (trace : List (Pass × List Diagnostic)) : String :=
  if verbose then
    String.join (trace.map fun (p, ds) =>
      note s!"{p.name} {ds.length} diagnostic(s) [{p.invariants}]")
  else ""

/-- Compile and render, with everything that goes to the error channel: the text of the result, or
none if the compilation failed. -/
def compile (a : Arguments) (inputs : Inputs) : Option String × String :=
  let options := { inputs.manifest.options with
    parallel := inputs.manifest.options.parallel && !a.sequential }
  let c := Compilation.start inputs.manifest.graph inputs.processors inputs.manifest.dataClasses
  match goal? a.emit with
  | none => (render a.emit inputs c, "")
  | some goal =>
    let outcome := c.run options goal
    let log := passLog a.verbose outcome.trace
      ++ String.join (outcome.result.diagnostics.map fun d => note d.text)
    match outcome.failure with
    | some p => (none, log ++ note (Compilation.failureMessage p))
    | none =>
      match render a.emit inputs outcome.result with
      | some text => (some text, log)
      | none => (none, log ++ complaint "pipeline finished without producing its output")

section

variable {m : Type → Type} [Monad m]

/-- Write a result where it is wanted. -/
def deliver (files : Files m) (output : Option String) (text err : String) : m Response := do
  match output with
  | none => return .success text err
  | some path =>
    match ← files.write path text with
    | .ok () => return .success "" err
    | .error e => return .failure 2 (err ++ complaint (Obstacle.file path e).message)

def perform (files : Files m) (a : Arguments) : m Response := do
  match ← readInputs files a with
  | .error e => return .failure 2 (complaint e.message)
  | .ok inputs =>
    match compile a inputs with
    | (none, err) => return .failure 1 err
    | (some text, err) => deliver files a.output text err

/-- Run the command with the given arguments. -/
def run (files : Files m) (arguments : List String) : m Response :=
  match request arguments with
  | .error e => return .failure 2 (e.message ++ "\n\n" ++ usageText)
  | .ok .version => return .success versionText ""
  | .ok .help => return .success usageText ""
  | .ok (.compile a) => perform files a

end

end Command
end FlowPlan
