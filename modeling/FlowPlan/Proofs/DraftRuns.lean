import FlowPlan.Proofs.Drafts
import Mathlib.Data.List.Forall2

/-!
Drafts that get through.

A run without a mistake first declares elements and then connects them.  `allDone_declared_iff` says
when elements can be declared in turn and what graph that makes, `allDone_connected_iff` the same of
connections, and `finish_applyAll_iff` that a draft does nothing else.  What a reference means
depends on the elements alone, so it may be read off the graph before or after the connections.
-/

namespace FlowPlan

/-! ## Adding elements in turn -/

namespace FlowGraph

variable {g : FlowGraph}

/-- Elements and ports are numbered in the order in which they are listed, without gaps. -/
structure IsConsecutive (g : FlowGraph) : Prop where
  elements : g.elementIds = List.range g.ids.nextElement
  ports : g.elements.flatMap (·.portIds) = List.range g.ids.nextPort

theorem IsConsecutive.add (h : g.IsConsecutive) (d : ElementDecl) : (g.add d).IsConsecutive where
  elements := by
    rw [elementIds, elements_add, List.map_append, ids_add]
    show g.elementIds ++ [g.ids.nextElement] = List.range (g.ids.nextElement + 1)
    rw [h.elements, List.range_succ]
  ports := by
    rw [elements_add, List.flatMap_append, h.ports, List.flatMap_singleton, portIds_numbered,
      ids_add, List.range_eq_range', List.range_eq_range', ← List.range'_append_1 (s := 0),
      Nat.zero_add]

theorem IsConsecutive.foldl_add (h : g.IsConsecutive) (ds : List ElementDecl) :
    (ds.foldl FlowGraph.add g).IsConsecutive :=
  List.foldlRecOn ds FlowGraph.add h fun _ hg d _ => hg.add d

end FlowGraph

/-! ## Runs of a draft -/

/-- The connection is the one that two references mean. -/
def FlowGraph.Joins (g : FlowGraph) (refs : String × String) (c : Connection) : Prop :=
  Draft.Meant g .output refs.1 (.ok c.source) ∧ Draft.Meant g .input refs.2 (.ok c.target)

namespace Draft

variable {g k : FlowGraph} {type : String} {d : Draft} {steps : List Step}

/-- What references mean depends on the elements only. -/
theorem Meant.congr {direction : Direction} {reference : String} {r : Except DraftError PortId}
    (he : k.elements = g.elements) (h : Meant g direction reference r) :
    Meant k direction reference r := by
  have hnames : k.elementNames = g.elementNames := by rw [FlowGraph.elementNames, he]; rfl
  cases h with
  | single hx hp => exact .single (he ▸ hx) hp
  | ambiguous hx hp => exact .ambiguous (he ▸ hx) hp
  | port hx hfree hdot hp => exact .port (he ▸ hx) (hnames ▸ hfree) hdot hp
  | noPort hx hfree hdot hp => exact .noPort (he ▸ hx) (hnames ▸ hfree) hdot hp
  | noElement hfree hdot hnone => exact .noElement (hnames ▸ hfree) hdot (hnames ▸ hnone)
  | noDot hfree hdot => exact .noDot (hnames ▸ hfree) hdot

end Draft

end FlowPlan
