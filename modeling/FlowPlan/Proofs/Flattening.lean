import FlowPlan.NormalForm
import FlowPlan.Proofs.Edits

/-!
Flattening keeps graphs well-formed.

What a nested element becomes outside has the shape of its kind, whatever it was inside, and a
nested part keeps the flow that it holds.
-/

namespace FlowPlan
namespace FlowGraph

theorem copyOf_shaped (part : String) (e : Element) : (copyOf part e).Shaped := by
  unfold copyOf
  cases e.kind with
  | input => exact ElementDecl.pseudo_shaped _ _ _
  | output => exact ElementDecl.pseudo_shaped _ _ _
  | operator desc => exact ElementDecl.operator_shaped _ _ _ _ _
  | pseudo => exact ElementDecl.pseudo_shaped _ _ _
  | flowPart nested => exact ElementDecl.flowPart_shaped _ _

/-- Only a part becomes a part, with the same flow. -/
theorem kind_of_kind_copyOf {part : String} {e : Element} {nested : FlowGraph}
    (h : (copyOf part e).kind = .flowPart nested) : e.kind = .flowPart nested := by
  unfold copyOf at h
  cases hk : e.kind <;> rw [hk] at h <;> cases h
  rfl

theorem foldl_step_wellFormed {part : String} {es : List Element} {s : Unfolding}
    (hs : s.graph.WellFormed)
    (hes : ∀ e ∈ es, ∀ nested, e.kind = .flowPart nested → nested.WellFormed) :
    (es.foldl (Unfolding.step part) s).graph.WellFormed := by
  induction es generalizing s with
  | nil => exact hs
  | cons e es ih =>
    refine ih (add_wellFormed hs (copyOf_shaped part e) fun nested hk => ?_)
      fun e' he' => hes e' (List.mem_cons_of_mem e he')
    exact hes e List.mem_cons_self nested (kind_of_kind_copyOf hk)

theorem unfold_wellFormed {g inner : FlowGraph} (h : g.WellFormed) {e : Element}
    (he : e ∈ g.elements) (hk : e.kind = .flowPart inner) : (g.unfold e inner).WellFormed :=
  connectAll_wellFormed (connectAll_wellFormed (connectAll_wellFormed
    (foldl_step_wellFormed (removeElement_wellFormed h he)
      fun _ he' _ hk' => (h.inner he hk).inner he' hk') _) _) _

theorem flatten_wellFormed {g : FlowGraph} (h : g.WellFormed) : g.flatten.1.WellFormed := by
  rw [flatten]
  split
  case h_1 => exact h
  case h_2 e inner heq =>
    obtain ⟨he, hk⟩ := firstPart?_eq_some heq
    exact flatten_wellFormed (unfold_wellFormed h he hk)
termination_by g.partCount
decreasing_by exact partCount_unfold_lt he hk

theorem isFlat_iff {g : FlowGraph} : g.isFlat = true ↔ ∀ x ∈ g.elements, x.isFlowPart = false := by
  simp [isFlat, hasFlowParts]

theorem kind_ne_flowPart_of_isFlat {g inner : FlowGraph} {e : Element} (h : g.isFlat = true)
    (he : e ∈ g.elements) : e.kind ≠ .flowPart inner := by
  intro hk
  have hflat := isFlat_iff.1 h e he
  rw [Element.isFlowPart, hk] at hflat
  cases hflat

/-- A graph without parts is flat already. -/
theorem flatten_of_isFlat {g : FlowGraph} (h : g.isFlat = true) : g.flatten = (g, 0) := by
  have hnone : g.firstPart? = none := by
    rw [firstPart?, List.findSome?_eq_none_iff]
    intro e he
    cases hkind : e.kind with
    | flowPart inner => exact absurd hkind (kind_ne_flowPart_of_isFlat h he)
    | _ => rfl
  rw [flatten]
  split
  case h_1 => rfl
  case h_2 e inner heq => rw [hnone] at heq; cases heq

end FlowGraph
end FlowPlan
