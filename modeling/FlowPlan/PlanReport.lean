import FlowPlan.StageModel

/-!
The report of a plan: its blocks stage by stage, with the shuffle, the fragments, the units and the
sinks of each stage.
-/

namespace FlowPlan
namespace PlanReport

def commaList (names : List String) : String := String.intercalate ", " names

/-- A block with its title and the names of its elements. -/
def blockLine (sg : StageGraph) (indent title : String) (b : BlockId) : String :=
  s!"{indent}{title} {b.label}: {commaList ((sg.elementsOf b).map sg.flow.nameOf)}\n"

def termText (t : Term) : String :=
  match t.arrangement with
  | .grouping => t.property.name
  | .ascending => s!"+{t.property.name}"
  | .descending => s!"-{t.property.name}"

def segmentLine (g : FlowGraph) (s : Segment) : String :=
  s!"    segment {s.portIndex}: {g.portLabel s.port} <{s.target.name}> "
    ++ s!"[{commaList (s.terms.map termText)}]\n"

def shuffleText (g : FlowGraph) (m : ShuffleModel) : String :=
  (if m.isPartial then "  shuffle (partial)\n" else "  shuffle\n")
    ++ String.join (m.segments.map (segmentLine g))

/-- The name of an element, with its processor unless that is the empty one. -/
def factorText (g : FlowGraph) (f : Factor) : String :=
  if f.processor.isEmpty then g.nameOf f.element
  else s!"{g.nameOf f.element}({f.processor.name})"

def fragmentLine (g : FlowGraph) (f : Fragment) : String :=
  let chain := String.intercalate " > " (f.factors.map (factorText g))
  let resources := if f.resources.isEmpty then "" else s!" uses {commaList f.resources}"
  s!"  fragment {f.id.label} in {f.block.label}: {chain}{resources}\n"

def portsText (g : FlowGraph) (ports : List PortId) : String :=
  commaList (ports.map g.portLabel)

def fragmentsText (ids : List FragmentId) : String := commaList (ids.map FragmentId.label)

def mapUnitLine (g : FlowGraph) (u : MapUnit) (n : Nat) : String :=
  s!"  map unit {n}: {portsText g u.inputs} -> {fragmentsText u.fragments}\n"

def reduceUnitLine (g : FlowGraph) (u : ReduceUnit) : String :=
  s!"  reduce unit {g.nameOf u.element}: {portsText g u.inputs} -> {fragmentsText u.fragments}\n"

def sinkLine (g : FlowGraph) (s : Sink) : String :=
  s!"  sink {s.name}: {portsText g s.outputs} => {portsText g s.receivers}\n"

def modelText (g : FlowGraph) (m : StageModel) : String :=
  String.join
    (m.fragments.map (fragmentLine g)
      ++ (m.mapUnits.zipIdx 1).map (fun (u, n) => mapUnitLine g u n)
      ++ m.reduceUnits.map (reduceUnitLine g)
      ++ m.sinks.map (sinkLine g))

/-- One stage; its shuffle and its model may not have been found. -/
def stageText (sg : StageGraph) (s : Stage) (shuffle : Option ShuffleModel)
    (model : Option StageModel) : String :=
  s!"\nstage {s.number}\n"
    ++ String.join (s.mapBlocks.map (blockLine sg "  " "map")
      ++ s.reduceBlocks.map (blockLine sg "  " "reduce"))
    ++ (match shuffle with
      | some m => shuffleText sg.flow m
      | none => "")
    ++ (match model with
      | some m => modelText sg.flow m
      | none => "  (not analyzed)\n")

/-- The whole report, given the shuffles and the models in the order of the stages. -/
def text (sg : StageGraph) (shuffles : List (Option ShuffleModel))
    (models : List (Option StageModel)) : String :=
  s!"plan: {sg.stages.length} stage(s), {sg.blocks.length} block(s), {sg.flow.size} element(s)\n"
    ++ blockLine sg "" "inputs" sg.input ++ blockLine sg "" "outputs" sg.output
    ++ String.join (sg.stages.zipIdx.map fun (s, i) =>
      stageText sg s ((shuffles[i]?).getD none) ((models[i]?).getD none))

end PlanReport
end FlowPlan
