import FlowPlan.Diagnostic
import FlowPlan.StageGraph.Blocks

/-!
Links between blocks: where the data that leaves a block arrives.

A checkpoint belongs to no block, so a link looks through checkpoints to the elements behind them.
It is direct when it was found without passing one.  Which side may feed which is checked link by
link, and a violation is a defect of the plan.
-/

namespace FlowPlan

/-- What a plan can violate. -/
inductive Defect
  | homeless (target : ElementRef) (label : String) (block : BlockId)
  | materializedShuffle (target : ElementRef) (label : String)
  | entersBesideShuffle (target : ElementRef) (label : String) (block : BlockId)
  | notFromMap (target : ElementRef) (label : String)
  | unmaterialized (target : ElementRef) (label : String) (block : BlockId)
  | selfDependent (target : ElementRef) (block : BlockId)
  | cyclic (element : ElementRef) (block : BlockId)
deriving DecidableEq, Repr

namespace Defect

def element : Defect → ElementRef
  | homeless target _ _ => target
  | materializedShuffle target _ => target
  | entersBesideShuffle target _ _ => target
  | notFromMap target _ => target
  | unmaterialized target _ _ => target
  | selfDependent target _ => target
  | cyclic element _ => element

def message : Defect → String
  | homeless _ label block => s!"`{label}` is fed by block {block.label} but belongs to no block"
  | materializedShuffle _ label => s!"reduce input `{label}` is fed through a checkpoint"
  | entersBesideShuffle _ label block =>
    s!"map output enters reduce block {block.label} at `{label}`, which is not a shuffle"
  | notFromMap _ label => s!"reduce input `{label}` is not fed by a map block"
  | unmaterialized _ label block =>
    s!"reduce block {block.label} feeds map input `{label}` without a checkpoint"
  | selfDependent _ block => s!"stage containing block {block.label} depends on itself"
  | cyclic _ block => s!"stages form a cycle through block {block.label}"

def diagnostic (d : Defect) : Diagnostic :=
  (Diagnostic.errorAt .planDefect d.element d.message).withHint
    "this is a planner defect; please report it with the flow manifest"

end Defect

namespace FlowGraph

/-- How messages refer to an element of this graph. -/
def ref (g : FlowGraph) (e : ElementId) : ElementRef := { id := e, name := g.nameOf e }

/-- How messages refer to the element that holds a port. -/
def ownerRef (g : FlowGraph) (p : PortId) : ElementRef := g.ref ((g.ownerId? p).getD 0)

def inputPortIds (g : FlowGraph) : List PortId :=
  g.elements.flatMap fun e => e.inputs.map (·.id)

/-- The input ports behind a checkpoint. -/
def behindCheckpoint (g : FlowGraph) (e : Element) : List PortId :=
  e.outputs.flatMap fun p => g.opposites p.id

end FlowGraph

namespace StageGraph

/-- Follow the pending ports through checkpoints, the first one to its end before the next.  The
result holds the ports found outside of checkpoints, each once, with the mark of the way on which
it was found first. -/
def resolve (g : FlowGraph) (unmet : List PortId) :
    List (PortId × Bool) → List (PortId × Bool)
  | [] => []
  | (p, direct) :: pending =>
    if _h : p ∈ unmet then
      match g.owner? p with
      | none => resolve g (unmet.erase p) pending
      | some e =>
        if e.isCheckpoint then
          resolve g (unmet.erase p) ((g.behindCheckpoint e).map (·, false) ++ pending)
        else (p, direct) :: resolve g (unmet.erase p) pending
    else resolve g unmet pending
termination_by pending => (unmet.length, pending.length)
decreasing_by
  · exact Prod.Lex.left _ _ (length_erase_lt _h)
  · exact Prod.Lex.left _ _ (length_erase_lt _h)
  · exact Prod.Lex.left _ _ (length_erase_lt _h)
  · exact Prod.Lex.right _ (Nat.lt_succ_self _)

/-- The ports that an output port feeds, looking through checkpoints, and which of them it was
found to feed directly. -/
def targets (g : FlowGraph) (p : PortId) : List (PortId × Bool) :=
  resolve g g.inputPortIds ((g.opposites p).map (·, true))

/-- Data that leaves a block at one port and arrives at another, outside of the block. -/
structure Route where
  source : Block
  connection : Connection
  direct : Bool
  /-- The block that has the port of arrival. -/
  target : Option Block

/-- The routes that leave a block.  What stays in the block is no route. -/
def routesFrom (g : FlowGraph) (blocks : List Block) (b : Block) : List Route :=
  b.outputs.flatMap fun out =>
    ((targets g out).filter fun (p, _) => !(g.ownerId? p).any b.holds).map fun (p, direct) =>
      { source := b, connection := { source := out, target := p }, direct,
        target := blocks.find? (·.ports.contains p) }

def routes (g : FlowGraph) (blocks : List Block) : List Route :=
  blocks.flatMap (routesFrom g blocks)

/-- A route that arrives at a block. -/
structure Link where
  connection : Connection
  source : Block
  target : Block
  direct : Bool

def Route.link? (r : Route) : Option Link :=
  r.target.map fun target =>
    { connection := r.connection, source := r.source, target, direct := r.direct }

namespace Link

/-- Map output that is shuffled into the reduce side of the same stage. -/
def isShuffle (l : Link) : Bool := l.source.isMap && l.target.isReduce

/-- What is wrong with a link by the sides that it joins, the first fault only. -/
def defects (g : FlowGraph) (l : Link) : List Defect :=
  let p := l.connection.target
  let target := g.ownerRef p
  let label := g.portLabel p
  if l.isShuffle && !l.direct then [.materializedShuffle target label]
  else if l.isShuffle && !(g.owner? p).any (·.isShuffleBoundary) then
    [.entersBesideShuffle target label l.target.id]
  else if l.target.isReduce && !l.source.isMap then [.notFromMap target label]
  else if l.source.isReduce && l.target.isMap && l.direct then
    [.unmaterialized target label l.source.id]
  else []

end Link

def Route.defects (g : FlowGraph) (r : Route) : List Defect :=
  match r.link? with
  | some l => l.defects g
  | none =>
    let p := r.connection.target
    [.homeless (g.ownerRef p) (g.portLabel p) r.source.id]

end StageGraph
end FlowPlan
