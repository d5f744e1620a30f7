import FlowPlan.Diagnostic
import FlowPlan.Precedence
import FlowPlan.Processor
import FlowPlan.StageGraph.Blocks

/-!
Fragments: the chains of elements that a block is run by.

A fragment goes on as long as there is one way to go on.  It begins where data enters the block or
several ways meet, and behind an element that fans out, leaves the block, or has a processor that
ends chains.
-/

namespace FlowPlan

/-- An element of a fragment with the processor that runs it. -/
structure Factor where
  element : ElementId
  processor : Processor
deriving DecidableEq, Repr

structure Fragment where
  id : FragmentId
  block : BlockId
  /-- The chain, from its first element on. -/
  factors : List Factor
  /-- The resources that the chain reads, each once. -/
  resources : List String
  /-- The output ports of the last element. -/
  outputs : List PortId
deriving DecidableEq, Repr

namespace Fragment

def elements (f : Fragment) : List ElementId := f.factors.map (·.element)

/-- The element that a fragment begins with; there always is one. -/
def head (f : Fragment) : ElementId := f.elements.headD 0

end Fragment

namespace Fragmentation

/-- The elements of a block in a flow, and who runs them. -/
structure Setting where
  flow : FlowGraph
  block : Block
  processor : ElementId → Processor

namespace Setting

variable (s : Setting)

def inBlock (es : List ElementId) : List ElementId := es.filter s.block.holds

def successors (e : ElementId) : List ElementId := s.inBlock (s.flow.successors e)

def predecessors (e : ElementId) : List ElementId := s.inBlock (s.flow.predecessors e)

/-- Some port of the element is one through which data enters the block. -/
def isEntered (e : ElementId) : Bool :=
  (s.block.inputs.filterMap s.flow.ownerId?).contains e

def isLeft (e : ElementId) : Bool := (s.block.outputs.filterMap s.flow.ownerId?).contains e

/-- No fragment goes on behind the element. -/
def splits (e : ElementId) : Bool :=
  (s.flow.outgoing e).length ≥ 2 || (s.flow.outputsOf e).length ≥ 2 || s.isLeft e
    || (s.processor e).endsChain

/-- The element begins a fragment on its own account. -/
def opens (e : ElementId) : Bool := (s.predecessors e).length ≠ 1 || s.isEntered e

/-- The elements that begin a fragment, in ascending order. -/
def starts : List ElementId :=
  ascending (s.block.elements.filter s.opens
    ++ (s.block.elements.filter s.splits).flatMap s.successors)

/-- The chain from an element on, through elements that begin no fragment. -/
def chain (free : List ElementId) (e : ElementId) : List ElementId :=
  if (s.processor e).endsChain then [e]
  else match s.successors e with
    | [n] => if _h : n ∈ free then e :: chain (free.erase n) n else [e]
    | _ => [e]
termination_by free.length
decreasing_by exact length_erase_lt _h

/-- The chains of a block, each from its start. -/
def chains : List (List ElementId) :=
  s.starts.map (s.chain (without s.block.elements s.starts))

def resourcesOf (e : ElementId) : List String :=
  (((s.flow.element? e).bind (·.operator?)).map (·.resources)).getD []

/-- The fragment of a chain. -/
def fragment (id : FragmentId) (chain : List ElementId) : Fragment :=
  { id, block := s.block.id,
    factors := chain.map fun e => { element := e, processor := s.processor e },
    resources := (chain.flatMap s.resourcesOf).eraseDups,
    outputs := ((chain.getLast?.map s.flow.outputsOf).getD []).map (·.id) }

/-- The fragments of a block, numbered from a given number on. -/
def fragments (first : FragmentId) : List Fragment :=
  (s.chains.zipIdx first).map fun (chain, id) => s.fragment id chain

/-- The elements of the block that a fragment feeds. -/
def fedElements (f : Fragment) : List ElementId :=
  s.inBlock (f.outputs.flatMap s.flow.oppositeOwners)

end Setting
end Fragmentation

/-- The fragments of several blocks, and which feeds which. -/
structure Fragments where
  list : List Fragment
  edges : List (FragmentId × FragmentId)

namespace Fragments

def empty : Fragments := ⟨[], []⟩

/-- The fragment that an element begins.  Where a block was split twice, the later split counts. -/
def headedBy? (fragments : List Fragment) (e : ElementId) : Option FragmentId :=
  ((fragments.filter (·.head == e)).getLast?).map (·.id)

/-- Add the fragments of one more block. -/
def addBlock (fs : Fragments) (s : Fragmentation.Setting) : Fragments :=
  let new := s.fragments fs.list.length
  let list := fs.list ++ new
  let edges := new.flatMap fun f =>
    ((s.fedElements f).filterMap (headedBy? list)).map fun n => (f.id, n)
  { list, edges := fs.edges ++ edges }

def outputsOf (fs : Fragments) (f : FragmentId) : List PortId :=
  ((fs.list[f]?).map (·.outputs)).getD []

def fedBy (fs : Fragments) (f : FragmentId) : List FragmentId :=
  (fs.edges.filter (·.1 == f)).map (·.2)

def feeding (fs : Fragments) (f : FragmentId) : List FragmentId :=
  (fs.edges.filter (·.2 == f)).map (·.1)

/-- The fragments reached from some, each after those that feed it; of several that could be next
the one with the smallest number is. -/
def orderedFrom (fs : Fragments) (heads : List FragmentId) : List FragmentId :=
  let reached := Search.reach fs.fedBy (fs.list.map (·.id)) heads
  (Precedence.order fs.feeding (ascending reached)).1

end Fragments
end FlowPlan
