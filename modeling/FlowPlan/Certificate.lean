/-!
Certificates: named obligations and whether they hold.
-/

namespace FlowPlan

structure Certificate where
  obligations : List (String × Bool)
deriving DecidableEq, Repr

namespace Certificate

def allPass (c : Certificate) : Bool := c.obligations.all (·.2)

/-- The names of the obligations that do not hold. -/
def failures (c : Certificate) : List String := (c.obligations.filter (!·.2)).map (·.1)

end Certificate
end FlowPlan
