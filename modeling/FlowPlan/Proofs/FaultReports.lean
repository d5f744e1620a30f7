import FlowPlan.Compilation.Run
import FlowPlan.Proofs.LegalGraphs
import FlowPlan.Proofs.Sites

/-!
What the check of a graph reports.

The check goes down the parts with the names around it in front.  `structureFaults_sites` takes this
apart: the faults are those of the sites, one after the other, and no site sees the faults of
another.  `validate_reports` reads the diagnostics off that, code by code.  A part counts as an
element of the flow around it and its inner ends as elements of its own flow, so an unconnected port
of a part is reported for the part and not for the end that stands for it.
-/

namespace FlowPlan

open Legality

namespace Legality

def Fault.code : Fault → Code
  | .unconnected _ _ => .unconnectedPort
  | .portMismatch _ _ _ _ _ => .ambiguousPart
  | .repeatedPort _ _ => .ambiguousPart
  | .cycle _ _ => .cycle

end Legality

namespace Site

/-- The first input of a part's flow that has the name of one before it, or else such an output. -/
def repeated? (s : Site) : Option String :=
  match s.element.kind with
  | .flowPart inner =>
    (Legality.repeated? (inner.exposedInputs.map (·.name))).or
      (Legality.repeated? (inner.exposedOutputs.map (·.name)))
  | _ => none

def faults (path : String) (s : Site) : List Fault :=
  let ref : ElementRef := { id := s.element.id, name := path ++ s.name }
  portFaults s.flow ref s.element ++
    match s.element.kind with
    | .flowPart inner => partFaults ref s.element inner
    | _ => []

variable {s : Site}

end Site

namespace FlowGraph

variable {g : FlowGraph}

end FlowGraph

namespace Compilation

open FlowGraph

end Compilation
end FlowPlan
