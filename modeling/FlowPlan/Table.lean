/-!
Tables in the order of their numbers.

A table has at most one entry for a number, and entering another one takes its place.
-/

namespace FlowPlan
namespace Table

variable {α : Type} {number : α → Nat} {x y : α} {ys : List α}

/-- Enter something into a table, in the place of what has its number. -/
def put (number : α → Nat) (x : α) : List α → List α
  | [] => [x]
  | y :: ys =>
    if number x < number y then x :: y :: ys
    else if number x = number y then x :: ys
    else y :: put number x ys

/-- A number that is greater than all others comes last. -/
theorem put_of_lt (h : ∀ y ∈ ys, number y < number x) : put number x ys = ys ++ [x] := by
  induction ys with
  | nil => rfl
  | cons y ys ih =>
    have hy : number y < number x := h y List.mem_cons_self
    rw [put, if_neg (Nat.lt_asymm hy), if_neg (Nat.ne_of_gt hy),
      ih fun z hz => h z (List.mem_cons_of_mem y hz), List.cons_append]

theorem mem_of_mem_put (h : y ∈ put number x ys) : y = x ∨ y ∈ ys := by
  induction ys with
  | nil => exact .inl (List.mem_singleton.1 h)
  | cons z ys ih =>
    unfold put at h
    split at h
    · exact List.mem_cons.1 h
    · split at h
      · exact (List.mem_cons.1 h).imp_right (List.mem_cons_of_mem z)
      · rcases List.mem_cons.1 h with rfl | h
        · exact .inr List.mem_cons_self
        · exact (ih h).imp_right (List.mem_cons_of_mem z)

theorem put_ascending (h : ys.Pairwise (number · < number ·)) :
    (put number x ys).Pairwise (number · < number ·) := by
  induction ys with
  | nil => exact List.pairwise_singleton _ _
  | cons y ys ih =>
    obtain ⟨hy, hys⟩ := List.pairwise_cons.1 h
    unfold put
    split
    case isTrue hlt =>
      refine List.pairwise_cons.2 ⟨fun z hz => ?_, h⟩
      rcases List.mem_cons.1 hz with rfl | hz
      · exact hlt
      · exact Nat.lt_trans hlt (hy z hz)
    case isFalse hge =>
      split
      case isTrue heq => exact List.pairwise_cons.2 ⟨fun z hz => heq ▸ hy z hz, hys⟩
      case isFalse hne =>
        refine List.pairwise_cons.2 ⟨fun z hz => ?_, ih hys⟩
        rcases mem_of_mem_put hz with rfl | hz
        · omega
        · exact hy z hz

/-- In a set of numbers, what was there stays there. -/
theorem mem_put_id {n m : Nat} {ns : List Nat} : n ∈ put id m ns ↔ n = m ∨ n ∈ ns := by
  induction ns with
  | nil => simp [put]
  | cons k ns ih =>
    unfold put
    split
    · exact List.mem_cons
    · split
      case isTrue heq =>
        obtain rfl : m = k := heq
        simp
      case isFalse => rw [List.mem_cons, ih, List.mem_cons, or_left_comm]

end Table
end FlowPlan
