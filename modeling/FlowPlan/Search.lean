/-!
Breadth-first search over a finite set of nodes.

The nodes not seen so far are kept as a list, and a node leaves it when it joins the queue.  The two
lists together get shorter with every step, which is why the search ends on any graph, cyclic or
not, and why no node is found twice.
-/

namespace FlowPlan

theorem nodup_eraseDups {α : Type} [BEq α] [LawfulBEq α] (l : List α) : l.eraseDups.Nodup := by
  match l with
  | [] => simp
  | a :: l =>
    rw [List.eraseDups_cons, List.nodup_cons]
    refine ⟨fun h => ?_, nodup_eraseDups _⟩
    have := (List.mem_filter.1 (List.mem_eraseDups.1 h)).2
    simp at this
termination_by l.length
decreasing_by
  have := List.length_filter_le (fun b => !b == a) l
  simp only [List.length_cons]
  omega

theorem length_erase_lt {α : Type} [BEq α] [LawfulBEq α] {l : List α} {a : α} (h : a ∈ l) :
    (l.erase a).length < l.length := by
  have := List.length_erase_of_mem h
  have := List.length_pos_of_mem h
  omega

namespace Search

variable {α : Type} [DecidableEq α]

/-- The neighbours of a node that have not been seen, in the order of the neighbours. -/
def discovered (next : α → List α) (unseen : List α) (x : α) : List α :=
  ((next x).filter (· ∈ unseen)).eraseDups

theorem mem_discovered {next : α → List α} {unseen : List α} {x y : α} :
    y ∈ discovered next unseen x ↔ y ∈ next x ∧ y ∈ unseen := by
  simp [discovered, List.mem_eraseDups]

/-- The nodes that stay unseen once the neighbours of a node have joined the queue. -/
def remaining (next : α → List α) (unseen : List α) (x : α) : List α :=
  unseen.filter (· ∉ discovered next unseen x)

theorem mem_remaining {next : α → List α} {unseen : List α} {x y : α} :
    y ∈ remaining next unseen x ↔ y ∈ unseen ∧ y ∉ next x := by
  simp only [remaining, List.mem_filter, mem_discovered, decide_eq_true_eq]
  exact ⟨fun ⟨h, hn⟩ => ⟨h, fun hx => hn ⟨hx, h⟩⟩, fun ⟨h, hn⟩ => ⟨h, fun hx => hn hx.1⟩⟩

/-- Discovered nodes are no more than the unseen ones they leave. -/
theorem length_remaining_add_le (next : α → List α) (unseen : List α) (x : α) :
    (remaining next unseen x).length + (discovered next unseen x).length ≤ unseen.length := by
  have hle : (discovered next unseen x).length
      ≤ (unseen.filter (· ∈ discovered next unseen x)).length := by
    refine List.Nodup.length_le_of_subset (nodup_eraseDups _) fun y hy => ?_
    exact List.mem_filter.2 ⟨(mem_discovered.1 hy).2, by simpa using hy⟩
  have hsplit : ∀ (p : α → Bool) (l : List α),
      (l.filter fun y => !p y).length + (l.filter p).length = l.length := by
    intro p l
    induction l with
    | nil => rfl
    | cons a l ih => by_cases h : p a <;> simp [h] <;> omega
  have := hsplit (fun y => decide (y ∈ discovered next unseen x)) unseen
  simp only [remaining, decide_not]
  omega

/-- The nodes of the queue and those reached from them through unseen nodes, each once, in the
order of their discovery. -/
def breadthFirst (next : α → List α) (unseen : List α) : List α → List α
  | [] => []
  | x :: queue =>
    x :: breadthFirst next (remaining next unseen x) (queue ++ discovered next unseen x)
termination_by queue => unseen.length + queue.length
decreasing_by
  have := length_remaining_add_le next unseen x
  simp only [List.length_append, List.length_cons]
  omega

/-- The search from several nodes that are part of the unseen ones. -/
def reach (next : α → List α) (nodes start : List α) : List α :=
  let start := (start.filter (· ∈ nodes)).eraseDups
  breadthFirst next (nodes.filter (· ∉ start)) start

end Search
end FlowPlan
