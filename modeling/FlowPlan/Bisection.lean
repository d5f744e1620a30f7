/-!
Looking a number up in an ascending list.

Each step halves the list, so the answer is right only where the list is ascending.
-/

namespace FlowPlan

/-- Search an ascending list by halving it. -/
def bisect (x : Nat) (xs : List Nat) : Bool :=
  if _h : xs.length ≤ 1 then xs.head? == some x
  else
    let half := xs.length / 2
    if x < xs.getD half 0 then bisect x (xs.take (xs.length - half)) else bisect x (xs.drop half)
termination_by xs.length
decreasing_by
  · simp only [List.length_take]; omega
  · simp only [List.length_drop]; omega

/-- Later members of an ascending list are greater. -/
theorem getElem_le_of_ascending {xs : List Nat} (h : xs.Pairwise (· < ·)) {i j : Nat} (hij : i ≤ j)
    (hj : j < xs.length) : xs[i] ≤ xs[j] := by
  rcases Nat.lt_or_eq_of_le hij with hlt | rfl
  · exact Nat.le_of_lt (List.pairwise_iff_getElem.1 h i j (by omega) hj hlt)
  · exact Nat.le_refl _

/-- In an ascending list the search finds what is there. -/
theorem bisect_iff_mem {x : Nat} {xs : List Nat} (h : xs.Pairwise (· < ·)) :
    bisect x xs = true ↔ x ∈ xs := by
  fun_induction bisect x xs with
  | case1 xs hlen =>
    match xs, hlen with
    | [], _ => simp
    | [y], _ => simpa using eq_comm
  | case2 xs hlen half hlt ih =>
    rw [ih (h.sublist (List.take_sublist _ _))]
    have hhalf : half < xs.length := by omega
    rw [List.getD, List.getElem?_eq_getElem hhalf, Option.getD_some] at hlt
    refine ⟨List.mem_of_mem_take, fun hx => ?_⟩
    obtain ⟨i, hi, rfl⟩ := List.getElem_of_mem hx
    have : i < half := Decidable.byContradiction fun hge =>
      Nat.not_le.2 hlt (getElem_le_of_ascending h (Nat.not_lt.1 hge) hi)
    exact List.mem_take_iff_getElem.2 ⟨i, by omega, rfl⟩
  | case3 xs hlen half hlt ih =>
    rw [ih (h.sublist (List.drop_sublist _ _))]
    have hhalf : half < xs.length := by omega
    rw [List.getD, List.getElem?_eq_getElem hhalf, Option.getD_some] at hlt
    refine ⟨List.mem_of_mem_drop, fun hx => ?_⟩
    obtain ⟨i, hi, rfl⟩ := List.getElem_of_mem hx
    have : half ≤ i := Decidable.byContradiction fun hge =>
      hlt (List.pairwise_iff_getElem.1 h i half hi hhalf (Nat.not_le.1 hge))
    exact List.mem_drop_iff_getElem.2 ⟨i - half, by omega, by simp [Nat.add_sub_cancel' this]⟩

end FlowPlan
