import FlowPlan.Fragment
import FlowPlan.Grouping
import FlowPlan.Shuffle

/-!
The model of a stage: its fragments, the units in which they run, and the sinks that take the
results.

The map side runs one unit for each set of data that is read, and the reduce side one for each
element that receives shuffled data.  Results that go to the same places are written once.
-/

namespace FlowPlan

/-- Fragments run for each record of some inputs that carry the same data. -/
structure MapUnit where
  inputs : List PortId
  fragments : List FragmentId
deriving DecidableEq, Repr

/-- Fragments run for each group of the records shuffled into one element. -/
structure ReduceUnit where
  element : ElementId
  inputs : List PortId
  fragments : List FragmentId
deriving DecidableEq, Repr

/-- Outputs that are written once because they have the same consumers. -/
structure Sink where
  name : String
  outputs : List PortId
  receivers : List PortId
deriving DecidableEq, Repr

structure StageModel where
  /-- The number of the stage. -/
  stage : Nat
  /-- The fragments, each at the position of its number. -/
  fragments : List Fragment
  mapUnits : List MapUnit
  shuffle : Option ShuffleModel
  reduceUnits : List ReduceUnit
  sinks : List Sink
deriving DecidableEq, Repr

/-- An element of a stage that no processor runs. -/
structure UnservedElement where
  element : ElementRef
  kind : String
deriving DecidableEq, Repr

namespace UnservedElement

def diagnostic (u : UnservedElement) : Diagnostic :=
  (Diagnostic.errorAt .noProcessor u.element
    s!"no processor for `{u.element.name}` (kind `{u.kind}`)").withHint
    s!"register a processor named `{u.kind}`"

end UnservedElement

namespace StageModel

/-- The processor of an element.  One that has none gets the empty processor, so that the rest of
its stage can still be looked at. -/
def processorOf (g : FlowGraph) (processors : ProcessorRegistry) (e : ElementId) : Processor :=
  ((g.element? e).bind (ProcessorRegistry.resolve? processors)).getD .empty

/-- The elements of a stage's blocks that no processor runs. -/
def unserved (sg : StageGraph) (stage : Stage) (processors : ProcessorRegistry) :
    List UnservedElement :=
  ((stage.blocks.flatMap sg.elementsOf).filterMap sg.flow.element?).filterMap fun e =>
    match ProcessorRegistry.resolve? processors e with
    | some _ => none
    | none => some { element := { id := e.id, name := e.name }, kind := e.workKind }

/-- The fragments of the blocks of a stage, map blocks first. -/
def fragmentsOf (sg : StageGraph) (stage : Stage) (processors : ProcessorRegistry) : Fragments :=
  (stage.blocks.filterMap sg.block?).foldl (fun fs block =>
    fs.addBlock { flow := sg.flow, block, processor := processorOf sg.flow processors }) .empty

/-- The fragments that begin at the owners of some ports. -/
def headsAt (sg : StageGraph) (fs : Fragments) (ports : List PortId) : List FragmentId :=
  (ports.filterMap sg.flow.ownerId?).filterMap (Fragments.headedBy? fs.list)

/-- One unit for each set of block outputs that map inputs read. -/
def mapUnitsOf (sg : StageGraph) (stage : Stage) (fs : Fragments) : List MapUnit :=
  let inputs := stage.mapBlocks.flatMap sg.inputsOf
  (groupByKey (fun p => ascending (sg.sourcesOf p)) inputs).map fun (_, inputs) =>
    { inputs, fragments := fs.orderedFrom (headsAt sg fs inputs) }

/-- One unit for each element that the reduce blocks are entered by. -/
def reduceUnitsOf (sg : StageGraph) (stage : Stage) (fs : Fragments) : List ReduceUnit :=
  let inputs := stage.reduceBlocks.flatMap sg.inputsOf
  (groupByKey (fun p => (sg.flow.ownerId? p).getD 0) inputs).map fun (element, inputs) =>
    { element, inputs,
      fragments := fs.orderedFrom ((Fragments.headedBy? fs.list element).toList) }

/-- The places that a block output goes to, except the stage's own reduce side. -/
def consumers (sg : StageGraph) (stage : Stage) (p : PortId) : List PortId :=
  let shuffled := stage.reduceBlocks.flatMap sg.inputsOf
  ascending ((sg.targetsOf p).filter (· ∉ shuffled))

/-- The block outputs of a stage that a unit produces and something outside consumes. -/
def producedOutputs (sg : StageGraph) (stage : Stage) (fs : Fragments)
    (units : List (List FragmentId)) : List PortId :=
  let produced := units.flatten.flatMap fs.outputsOf
  (stage.blocks.flatMap sg.outputsOf).filter fun p =>
    produced.contains p && !(consumers sg stage p).isEmpty

/-- The sinks of a stage, named in the order in which their first outputs occur. -/
def sinksOf (sg : StageGraph) (stage : Stage) (fs : Fragments) (units : List (List FragmentId)) :
    List Sink :=
  ((groupByKey (consumers sg stage) (producedOutputs sg stage fs units)).zipIdx 1).map
    fun ((receivers, outputs), i) => { name := s!"result{i}", outputs, receivers }

end StageModel

/-- The model of a stage, unless some element of it has no processor. -/
def analyzeStage (sg : StageGraph) (stage : Stage) (shuffle : Option ShuffleModel)
    (processors : ProcessorRegistry) : Option StageModel × List Diagnostic :=
  match StageModel.unserved sg stage processors with
  | [] =>
    let fs := StageModel.fragmentsOf sg stage processors
    let mapUnits := StageModel.mapUnitsOf sg stage fs
    let reduceUnits := StageModel.reduceUnitsOf sg stage fs
    let units := mapUnits.map (·.fragments) ++ reduceUnits.map (·.fragments)
    (some { stage := stage.number, fragments := fs.list, mapUnits, shuffle, reduceUnits,
            sinks := StageModel.sinksOf sg stage fs units }, [])
  | us => (none, us.map (·.diagnostic))

end FlowPlan
