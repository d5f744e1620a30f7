import FlowPlan.Search

/-!
Putting things in an order in which each one comes after those it needs.

Of several that are ready the first one goes first, so the result does not depend on anything but
the needs and the given order.  What lies on a cycle, or needs something that does, is never ready
and is left over.
-/

namespace FlowPlan
namespace Precedence

variable {α : Type} [DecidableEq α]

/-- Everything a candidate needs has been placed. -/
def isReady (needs : α → List α) (candidates : List α) (x : α) : Bool :=
  (needs x).all fun y => y ∉ candidates

/-- The candidates in order, and those left over. -/
def order (needs : α → List α) (candidates : List α) : List α × List α :=
  match _h : candidates.find? (isReady needs candidates) with
  | none => ([], candidates)
  | some x =>
    let (ordered, left) := order needs (candidates.erase x)
    (x :: ordered, left)
termination_by candidates.length
decreasing_by exact length_erase_lt (List.mem_of_find?_eq_some _h)

end Precedence
end FlowPlan
