/-!
Numbers that name the parts of a flow and of its plan.

A number is handed out once and stays with its holder, so a transformation may add and remove
elements without disturbing what other parts of a plan say about the rest.  The order of the numbers
is the order in which things were added, and every tie in the planner is broken by it.
-/

namespace FlowPlan

abbrev ElementId := Nat

abbrev PortId := Nat

abbrev BlockId := Nat

abbrev FragmentId := Nat

namespace ElementId

/-- The name under which an element number appears in messages and dumps. -/
def label (id : ElementId) : String := s!"e{id}"

end ElementId

namespace PortId

def label (id : PortId) : String := s!"p{id}"

end PortId

namespace BlockId

def label (id : BlockId) : String := s!"b{id}"

end BlockId

namespace FragmentId

def label (id : FragmentId) : String := s!"f{id}"

end FragmentId

/-- The next unused numbers of one flow.  They only grow, so a number is never given out twice. -/
structure IdSupply where
  nextElement : ElementId
  nextPort : PortId
deriving DecidableEq, Repr

namespace IdSupply

def start : IdSupply := { nextElement := 0, nextPort := 0 }

/-- Hand out one element number. -/
def takeElement (s : IdSupply) : ElementId × IdSupply :=
  (s.nextElement, { s with nextElement := s.nextElement + 1 })

/-- Hand out one port number. -/
def takePort (s : IdSupply) : PortId × IdSupply :=
  (s.nextPort, { s with nextPort := s.nextPort + 1 })

end IdSupply
end FlowPlan
