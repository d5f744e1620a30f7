import FlowPlan.DataClass
import FlowPlan.Diagnostic
import FlowPlan.Processor
import FlowPlan.StageGraph.Basic

/-!
The shuffle of a stage: how the records entering its reduce side are grouped and sorted.

Every input port of a rendezvous element has a segment.  Records enter it in the class of their
producer and leave it in the declared class of the port, whose properties the key names.  An input
whose key cannot be resolved is reported and has no segment, and the rest of the stage is resolved
all the same.
-/

namespace FlowPlan

inductive Arrangement
  | grouping
  | ascending
  | descending
deriving DecidableEq, Repr

namespace Arrangement

def label : Arrangement → String
  | grouping => "group"
  | ascending => "asc"
  | descending => "desc"

def ofDirection : SortDirection → Arrangement
  | .ascending => ascending
  | .descending => descending

end Arrangement

/-- One resolved term of a key. -/
structure Term where
  /-- The position in the segment, from one on. -/
  id : Nat
  property : Property
  arrangement : Arrangement
deriving DecidableEq, Repr

/-- The shuffle of one input port. -/
structure Segment where
  /-- The position of the element among those that the reduce blocks are entered by, from zero
  on. -/
  elementIndex : Nat
  /-- The position of the segment in the model, from one on. -/
  portIndex : Nat
  element : ElementId
  port : PortId
  source : DataClass
  target : DataClass
  terms : List Term
deriving DecidableEq, Repr

namespace Segment

def groupingTerms (s : Segment) : List Term := s.terms.filter (·.arrangement == .grouping)

/-- The types by which the records are grouped. -/
def groupingTypes (s : Segment) : List PropertyType := s.groupingTerms.map (·.property.type)

end Segment

structure ShuffleModel where
  /-- The number of the stage. -/
  stage : Nat
  segments : List Segment
  /-- Something could not be resolved. -/
  isPartial : Bool
deriving DecidableEq, Repr

namespace ShuffleModel

def segmentFor? (m : ShuffleModel) (p : PortId) : Option Segment :=
  m.segments.find? (·.port == p)

def segmentsOf (m : ShuffleModel) (e : ElementId) : List Segment :=
  m.segments.filter (·.element == e)

end ShuffleModel

/-- What can be wrong with the shuffle of an element. -/
inductive ShuffleFault
  | noRendezvous (kind : String)
  | noKey (label : String)
  | unknownSource (type label : String)
  | unknownTarget (type label : String)
  | unknownProperty (className property label : String)
  | groupingCount (label : String) (actual expected : Nat)
  | groupingTypes (label : String)
deriving DecidableEq, Repr

namespace ShuffleFault

def code : ShuffleFault → Code
  | noRendezvous _ => .noRendezvous
  | noKey _ => .missingKey
  | unknownSource _ _ => .unknownClass
  | unknownTarget _ _ => .unknownClass
  | unknownProperty _ _ _ => .unknownProperty
  | groupingCount _ _ _ => .groupingMismatch
  | groupingTypes _ => .groupingMismatch

def message (element : ElementRef) : ShuffleFault → String
  | noRendezvous kind => s!"no rendezvous processor for `{element.name}` (kind `{kind}`)"
  | noKey label => s!"rendezvous input `{label}` declares no shuffle key"
  | unknownSource type label => s!"data class `{type}` feeding `{label}` is not defined"
  | unknownTarget type label => s!"data class `{type}` of `{label}` is not defined"
  | unknownProperty className property label =>
    s!"data class `{className}` has no property `{property}` (key of `{label}`)"
  | groupingCount label actual expected =>
    s!"`{label}` groups by {actual} properties but the first input groups by {expected}"
  | groupingTypes label => s!"grouping property types of `{label}` differ from the first input"

def hint? : ShuffleFault → Option String
  | noRendezvous _ => some "register a processor of kind `rendezvous` for this operator kind"
  | _ => none

def diagnostic (element : ElementRef) (f : ShuffleFault) : Diagnostic :=
  { Diagnostic.errorAt f.code element (f.message element) with hint := f.hint? }

end ShuffleFault

namespace Shuffle

/-- Names in the order of the key: those to group by first. -/
def wanted (key : ShuffleKey) : List (String × Arrangement) :=
  key.group.map (·, .grouping) ++ key.order.map fun o => (o.property, .ofDirection o.direction)

/-- The names of a key that its class does not have. -/
def unknownNames (target : DataClass) (key : ShuffleKey) : List String :=
  ((wanted key).map (·.1)).filter fun n => (target.findProperty? n).isNone

/-- The terms of a key, numbered from one on. -/
def terms (target : DataClass) (key : ShuffleKey) : List Term :=
  ((wanted key).filterMap fun (n, arrangement) =>
    (target.findProperty? n).map (·, arrangement)).zipIdx 1 |>.map
      fun ((property, arrangement), id) => { id, property, arrangement }

/-- The type of the records that enter a port: that of its first producer, or its own. -/
def sourceType (g : FlowGraph) (p : Port) : String :=
  match g.opposites p.id with
  | u :: _ => g.portType u
  | [] => p.type

/-- The segment of one port, not yet placed in the model, or what stands against it. -/
def resolvePort (g : FlowGraph) (classes : DataClassRegistry) (elementIndex : Nat)
    (element : ElementId) (p : Port) : Except (List ShuffleFault) Segment :=
  let label := g.portLabel p.id
  match p.key with
  | none => .error [.noKey label]
  | some key =>
    let sourceName := sourceType g p
    match classes.find? sourceName, classes.find? p.type with
    | none, none => .error [.unknownSource sourceName label, .unknownTarget p.type label]
    | none, some _ => .error [.unknownSource sourceName label]
    | some _, none => .error [.unknownTarget p.type label]
    | some source, some target =>
      match unknownNames target key with
      | [] => .ok { elementIndex, portIndex := 0, element, port := p.id, source, target,
                    terms := terms target key }
      | names => .error (names.map fun n => .unknownProperty target.name n label)

/-- How a segment differs from the way in which the first input is grouped, if it does. -/
def groupingFault? (g : FlowGraph) (first s : Segment) : Option ShuffleFault :=
  let label := g.portLabel s.port
  let actual := s.groupingTypes
  let expected := first.groupingTypes
  if actual = expected then none
  else if actual.length ≠ expected.length then
    some (.groupingCount label actual.length expected.length)
  else some (.groupingTypes label)

/-- Keep the segments that group like the first one and report the others. -/
def agree (g : FlowGraph) : List Segment → List Segment × List ShuffleFault
  | [] => ([], [])
  | first :: rest =>
    (first :: rest.filter fun s => (groupingFault? g first s).isNone,
      rest.filterMap (groupingFault? g first))

/-- The segments of one element and what is wrong with it. -/
def resolveElement (g : FlowGraph) (processors : ProcessorRegistry) (classes : DataClassRegistry)
    (elementIndex : Nat) (e : Element) : List Segment × List ShuffleFault :=
  if (ProcessorRegistry.resolve? processors e).any (·.kind == .rendezvous) then
    let results := e.inputs.map (resolvePort g classes elementIndex e.id)
    let found := results.filterMap fun
      | .ok s => some s
      | .error _ => none
    let faults := results.flatMap fun
      | .ok _ => []
      | .error fs => fs
    let (kept, mismatches) := agree g found
    (kept, faults ++ mismatches)
  else ([], [.noRendezvous e.workKind])

/-- The owners of the reduce blocks' inputs, each once. -/
def rendezvousElements (sg : StageGraph) (stage : Stage) : List ElementId :=
  ((stage.reduceBlocks.flatMap sg.inputsOf).filterMap sg.flow.ownerId?).eraseDups

/-- The elements that a stage's reduce side is entered by, each with its segments and faults. -/
def resolutions (sg : StageGraph) (stage : Stage) (processors : ProcessorRegistry)
    (classes : DataClassRegistry) : List (ElementRef × List Segment × List ShuffleFault) :=
  ((rendezvousElements sg stage).filterMap sg.flow.element?).zipIdx.map fun (e, i) =>
    ({ id := e.id, name := e.name }, resolveElement sg.flow processors classes i e)

end Shuffle

/-- What the analysis of a shuffle has found so far. -/
structure Findings where
  segments : List Segment
  diagnostics : List Diagnostic
  /-- Something could not be resolved. -/
  isPartial : Bool

namespace Findings

def start : Findings := { segments := [], diagnostics := [], isPartial := false }

/-- Report a fault of an element. -/
def report (element : ElementRef) (found : Findings) (f : ShuffleFault) : Findings :=
  { found with diagnostics := found.diagnostics ++ [f.diagnostic element], isPartial := true }

/-- Place a segment behind those that there are. -/
def keep (found : Findings) (s : Segment) : Findings :=
  { found with
    segments := found.segments ++ [{ s with portIndex := found.segments.length + 1 }] }

/-- Report the faults of an element and keep its segments. -/
def add (found : Findings) (r : ElementRef × List Segment × List ShuffleFault) : Findings :=
  let (element, segments, faults) := r
  segments.foldl keep (faults.foldl (report element) found)

theorem foldl_report (element : ElementRef) (faults : List ShuffleFault) (found : Findings) :
    faults.foldl (report element) found
      = { found with
          diagnostics := found.diagnostics ++ faults.map (·.diagnostic element),
          isPartial := found.isPartial || !faults.isEmpty } := by
  induction faults generalizing found with
  | nil => simp
  | cons f faults ih => simp [ih, report]

theorem foldl_keep (segments : List Segment) (found : Findings) :
    segments.foldl keep found
      = { found with
          segments := found.segments ++
            (segments.zipIdx (found.segments.length + 1)).map fun (s, i) =>
              { s with portIndex := i } } := by
  induction segments generalizing found with
  | nil => simp
  | cons s segments ih => simp [ih, keep]

/-- Segments are numbered through all elements, and something is missing if anything was
reported. -/
theorem foldl_add (rs : List (ElementRef × List Segment × List ShuffleFault)) (found : Findings) :
    rs.foldl add found
      = { segments := found.segments ++
            ((rs.flatMap fun (_, segments, _) => segments).zipIdx (found.segments.length + 1)).map
              fun (s, i) => { s with portIndex := i },
          diagnostics := found.diagnostics ++
            rs.flatMap fun (element, _, faults) => faults.map (·.diagnostic element),
          isPartial := found.isPartial ||
            !(rs.flatMap fun (element, _, faults) =>
              faults.map (·.diagnostic element)).isEmpty } := by
  induction rs generalizing found with
  | nil => simp
  | cons r rs ih =>
    obtain ⟨element, segments, faults⟩ := r
    rw [List.foldl_cons, ih, add, foldl_report, foldl_keep]
    cases faults <;> simp [List.zipIdx_append, Nat.add_right_comm]

end Findings

/-- The shuffle of a stage, `none` if the stage has no reduce side, and what is wrong with it. -/
def analyzeShuffle (sg : StageGraph) (stage : Stage) (processors : ProcessorRegistry)
    (classes : DataClassRegistry) : Option ShuffleModel × List Diagnostic :=
  if stage.hasReduce then
    let found := (Shuffle.resolutions sg stage processors classes).foldl Findings.add .start
    (some { stage := stage.number, segments := found.segments, isPartial := found.isPartial },
      found.diagnostics)
  else (none, [])

theorem analyzeShuffle_of_hasReduce {sg : StageGraph} {stage : Stage}
    (hreduce : stage.hasReduce = true) (processors : ProcessorRegistry)
    (classes : DataClassRegistry) :
    analyzeShuffle sg stage processors classes =
      let found := Shuffle.resolutions sg stage processors classes
      let segments := found.flatMap fun (_, segments, _) => segments
      let diagnostics := found.flatMap fun (element, _, faults) =>
        faults.map (·.diagnostic element)
      (some { stage := stage.number,
              segments := (segments.zipIdx 1).map fun (s, i) => { s with portIndex := i },
              isPartial := !diagnostics.isEmpty },
        diagnostics) := by
  rw [analyzeShuffle, if_pos hreduce, Findings.foldl_add]
  rfl

end FlowPlan
