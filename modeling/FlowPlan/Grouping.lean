/-!
Gathering the items of a list that share a key.
-/

namespace FlowPlan

/-- The keys in the order of their first item, each with its items in their order. -/
def groupByKey {α κ : Type} [DecidableEq κ] (key : α → κ) (xs : List α) : List (κ × List α) :=
  (xs.map key).eraseDups.map fun k => (k, xs.filter (key · = k))

/-- Each item with the next one. -/
def adjacent {α : Type} (xs : List α) : List (α × α) := xs.zip xs.tail

end FlowPlan
