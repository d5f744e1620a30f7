import FlowPlan.Search
import FlowPlan.Proofs.Loops

/-!
What a breadth-first search finds: the nodes of the queue, and whatever is reached from them by
steps to unseen nodes.

A search may as well let nodes join the queue again and again, and take up those only that it has
not taken up before.  Nothing but the nodes that are left bounds its turns (`takeUp`).  It ends, and
takes up the same nodes in the same order (`takeUp_endsIn`), since its queue without repetitions and
without what has been taken up is the queue of the search above.
-/

namespace FlowPlan
namespace Search

open Relation

variable {α : Type} {next : α → List α} {unseen : List α} {x y : α}

/-- A step to a neighbour that has not been seen. -/
def Step (next : α → List α) (unseen : List α) (x y : α) : Prop := y ∈ next x ∧ y ∈ unseen

theorem Step.mono {more : List α} (hsub : ∀ z ∈ unseen, z ∈ more)
    (h : ReflTransGen (Step next unseen) x y) : ReflTransGen (Step next more) x y :=
  ReflTransGen.mono (fun _ b hab => ⟨hab.1, hsub b hab.2⟩) x y h

variable [DecidableEq α]

/-- Once the neighbours of a node are discovered, it is not needed on the way any more. -/
theorem Step.discover {z : α} (h : ReflTransGen (Step next unseen) z y) :
    y = x ∨ ∃ w, (w = z ∨ w ∈ discovered next unseen x) ∧
      ReflTransGen (Step next (remaining next unseen x)) w y := by
  induction h with
  | refl => exact .inr ⟨z, .inl rfl, .refl⟩
  | @tail a b _ hstep ih =>
    by_cases hb : b ∈ next x
    · exact .inr ⟨b, .inr (mem_discovered.2 ⟨hb, hstep.2⟩), .refl⟩
    · rcases ih with rfl | ⟨w, hw, hpath⟩
      · exact absurd hstep.1 hb
      · exact .inr ⟨w, hw, hpath.tail ⟨hstep.1, mem_remaining.2 ⟨hstep.2, hb⟩⟩⟩

theorem mem_breadthFirst (next : α → List α) (unseen queue : List α) :
    y ∈ breadthFirst next unseen queue ↔
      ∃ x ∈ queue, ReflTransGen (Step next unseen) x y := by
  induction unseen, queue using breadthFirst.induct next with
  | case1 unseen => simp [breadthFirst]
  | case2 unseen x queue ih =>
    have hsub : ∀ z ∈ remaining next unseen x, z ∈ unseen := fun z hz => (mem_remaining.1 hz).1
    rw [breadthFirst, List.mem_cons, ih]
    constructor
    · intro h
      rcases h with rfl | ⟨z, hz, hpath⟩
      · exact ⟨y, List.mem_cons_self, .refl⟩
      · rcases List.mem_append.1 hz with hz | hz
        · exact ⟨z, List.mem_cons_of_mem x hz, Step.mono hsub hpath⟩
        · exact ⟨x, List.mem_cons_self, .head (mem_discovered.1 hz) (Step.mono hsub hpath)⟩
    · intro h
      obtain ⟨z, hz, hpath⟩ := h
      rcases Step.discover (x := x) hpath with rfl | ⟨w, hw, hpath'⟩
      · exact .inl rfl
      · rcases hw with rfl | hw
        · rcases List.mem_cons.1 hz with rfl | hz
          · -- A way that stays clear of the neighbours has not left the node.
            rcases hpath'.cases_head with rfl | ⟨v, hstep, -⟩
            · exact .inl rfl
            · exact absurd hstep.1 (mem_remaining.1 hstep.2).2
          · exact .inr ⟨w, List.mem_append_left _ hz, hpath'⟩
        · exact .inr ⟨w, List.mem_append_right _ hw, hpath'⟩

theorem mem_reach {nodes start : List α} :
    y ∈ reach next nodes start ↔
      ∃ x ∈ start, x ∈ nodes ∧ ReflTransGen (Step next nodes) x y := by
  have hstart : ∀ x, x ∈ (start.filter (· ∈ nodes)).eraseDups ↔ x ∈ start ∧ x ∈ nodes := by
    intro x
    simp [List.mem_eraseDups]
  rw [reach, mem_breadthFirst]
  constructor
  · intro h
    obtain ⟨x, hx, hpath⟩ := h
    obtain ⟨hx, hnode⟩ := (hstart x).1 hx
    exact ⟨x, hx, hnode, Step.mono (fun z hz => (List.mem_filter.1 hz).1) hpath⟩
  · intro h
    obtain ⟨x, hx, hnode, hpath⟩ := h
    have hx := (hstart x).2 ⟨hx, hnode⟩
    generalize (start.filter (· ∈ nodes)).eraseDups = first at hx
    -- A node of the start that is met on the way begins a way of its own.
    induction hpath with
    | refl => exact ⟨x, hx, .refl⟩
    | @tail a b _ hstep ih =>
      by_cases hb : b ∈ first
      · exact ⟨b, hb, .refl⟩
      · obtain ⟨z, hz, hpath⟩ := ih
        have hunseen : b ∈ nodes.filter (· ∉ first) :=
          List.mem_filter.2 ⟨hstep.2, decide_eq_true hb⟩
        exact ⟨z, hz, hpath.tail ⟨hstep.1, hunseen⟩⟩

theorem breadthFirst_nodup {queue : List α} (hqueue : queue.Nodup)
    (hseen : ∀ x ∈ queue, x ∉ unseen) : (breadthFirst next unseen queue).Nodup := by
  induction unseen, queue using breadthFirst.induct next with
  | case1 => simp [breadthFirst]
  | case2 unseen x queue ih =>
    obtain ⟨hx, hqueue⟩ := List.nodup_cons.1 hqueue
    have hunseen := hseen x List.mem_cons_self
    have hnew : ∀ z ∈ discovered next unseen x, z ∉ remaining next unseen x := fun z hz hrem =>
      (mem_remaining.1 hrem).2 (mem_discovered.1 hz).1
    have hold : ∀ z ∈ queue, z ∉ unseen := fun z hz => hseen z (List.mem_cons_of_mem x hz)
    rw [breadthFirst, List.nodup_cons]
    refine ⟨fun hmem => ?_, ih ?_ fun z hz => ?_⟩
    · -- The node would be in the queue again, or be reached once more.
      obtain ⟨z, hz, hpath⟩ := (mem_breadthFirst _ _ _).1 hmem
      rcases hpath.cases_tail with rfl | ⟨_, -, hstep⟩
      · exact (List.mem_append.1 hz).elim hx fun hz => hunseen (mem_discovered.1 hz).2
      · exact hunseen (mem_remaining.1 hstep.2).1
    · refine List.nodup_append.2 ⟨hqueue, nodup_eraseDups _, fun y hy z hz heq => ?_⟩
      exact hold y hy (heq ▸ (mem_discovered.1 hz).2)
    · rcases List.mem_append.1 hz with hz | hz
      · exact fun hrem => hold z hz (mem_remaining.1 hrem).1
      · exact hnew z hz

theorem reach_nodup (next : α → List α) (nodes start : List α) : (reach next nodes start).Nodup :=
  breadthFirst_nodup (nodup_eraseDups _) fun x hx hmem => by
    have := (List.mem_filter.1 hmem).2
    simp [hx] at this

/-! ## Taking nodes up from the queue -/

/-- The nodes that wait, perhaps several times, those that have been taken up, and those of them
that are kept. -/
structure Frontier (α : Type) where
  queue : List α
  taken : List α
  kept : List α

/-- A turn of the search.  Nodes that are kept are not walked on from. -/
def takeUp (next : α → List α) (keep : α → Bool) (f : Frontier α) :
    Turn (Frontier α) (List α) :=
  match f.queue with
  | [] => .done f.kept
  | x :: queue =>
    if x ∈ f.taken then .again { f with queue }
    else if keep x then .again ⟨queue, x :: f.taken, f.kept ++ [x]⟩
    else .again ⟨queue ++ next x, x :: f.taken, f.kept⟩

section TakeUp

variable {keep : α → Bool} {nodes queue taken kept ys : List α}

/-- The nodes that will be taken up from the queue, in turn. -/
def waiting (queue taken : List α) : List α := (queue.filter (· ∉ taken)).eraseDups

/-- The nodes that are not in the queue and have not been. -/
def untouched (nodes queue taken : List α) : List α :=
  nodes.filter fun y => y ∉ taken ∧ y ∉ queue

theorem waiting_cons_of_mem (hx : x ∈ taken) :
    waiting (x :: queue) taken = waiting queue taken := by
  rw [waiting, List.filter_cons_of_neg (by simpa using hx), waiting]

theorem waiting_cons_of_not_mem (hx : x ∉ taken) :
    waiting (x :: queue) taken = x :: waiting queue (x :: taken) := by
  have hrest : ((queue.filter (· ∉ taken)).filter fun y => !y == x) =
      queue.filter (· ∉ x :: taken) := by
    rw [List.filter_filter]
    exact List.filter_congr fun y _ => by grind
  rw [waiting, List.filter_cons_of_pos (by simpa using hx), List.eraseDups_cons, hrest, waiting]

theorem waiting_append : waiting (queue ++ ys) taken =
    waiting queue taken ++ (ys.filter fun y => y ∉ taken ∧ y ∉ queue).eraseDups := by
  have hrest : (ys.filter (· ∉ taken)).removeAll (queue.filter (· ∉ taken)) =
      ys.filter fun y => y ∉ taken ∧ y ∉ queue := by
    rw [List.removeAll, List.filter_filter]
    exact List.filter_congr fun y _ => by grind
  rw [waiting, List.filter_append, List.eraseDups_append, hrest, waiting]

/-- What a node leads to joins the queue of nodes that will be taken up. -/
theorem waiting_append_discovered (hys : ∀ y ∈ ys, y ∈ nodes) (hnext : next x = ys) :
    waiting queue (x :: taken) ++ discovered next (untouched nodes (x :: queue) taken) x =
      waiting (queue ++ ys) (x :: taken) := by
  have hnew : ys.filter (· ∈ untouched nodes (x :: queue) taken) =
      ys.filter fun y => y ∉ x :: taken ∧ y ∉ queue :=
    List.filter_congr fun y hy => by
      have := hys y hy
      grind [untouched]
  rw [waiting_append, discovered, hnext, hnew]

theorem remaining_untouched (hnext : next x = ys) :
    remaining next (untouched nodes (x :: queue) taken) x =
      untouched nodes (queue ++ ys) (x :: taken) := by
  rw [remaining, untouched, List.filter_filter, untouched]
  refine List.filter_congr fun y hy => ?_
  have hdiscovered : y ∈ discovered next (untouched nodes (x :: queue) taken) x ↔
      y ∈ next x ∧ y ∈ untouched nodes (x :: queue) taken := mem_discovered
  grind [untouched]

/-- A node is taken up in both searches at once. -/
theorem breadthFirst_waiting_cons (hx : x ∉ taken) (hys : ∀ y ∈ ys, y ∈ nodes)
    (hnext : next x = ys) :
    breadthFirst next (untouched nodes (x :: queue) taken) (waiting (x :: queue) taken) =
      x :: breadthFirst next (untouched nodes (queue ++ ys) (x :: taken))
        (waiting (queue ++ ys) (x :: taken)) := by
  rw [waiting_cons_of_not_mem hx, breadthFirst, waiting_append_discovered hys hnext,
    remaining_untouched hnext]

theorem untouched_cons_of_mem (hx : x ∈ taken) :
    untouched nodes (x :: queue) taken = untouched nodes queue taken :=
  List.filter_congr fun y _ => by grind

/-- The nodes that are kept in the end. -/
def keptAtEnd (next : α → List α) (keep : α → Bool) (nodes : List α) (f : Frontier α) : List α :=
  f.kept ++ (breadthFirst (fun x => if keep x then [] else next x)
    (untouched nodes f.queue f.taken) (waiting f.queue f.taken)).filter keep

/-- Fewer nodes are left to be taken up, or as many and the queue is shorter. -/
def Closer (nodes : List α) : Frontier α → Frontier α → Prop :=
  InvImage (Prod.Lex (· < ·) (· < ·)) fun f =>
    ((nodes.filter (· ∉ f.taken)).length, f.queue.length)

theorem closer_wellFounded (nodes : List α) : WellFounded (Closer nodes) :=
  InvImage.wf _ (Prod.lex Nat.lt_wfRel Nat.lt_wfRel).wf

theorem closer_of_taken (hx : x ∈ nodes) (hnew : x ∉ taken) (queue' kept' : List α) :
    Closer nodes ⟨queue', x :: taken, kept'⟩ ⟨queue, taken, kept⟩ := by
  have hfewer : nodes.filter (· ∉ x :: taken) = (nodes.filter (· ∉ taken)).filter (· ≠ x) := by
    rw [List.filter_filter]
    exact List.filter_congr fun y _ => by grind
  refine Prod.Lex.left _ _ ?_
  simp only [hfewer]
  exact List.length_filter_lt_length_iff_exists.2
    ⟨x, List.mem_filter.2 ⟨hx, decide_eq_true hnew⟩, by simp⟩

/-- Each turn either ends the search or leads closer to its end, and to the same nodes. -/
theorem takeUp_turn (hnext : ∀ x ∈ nodes, ∀ y ∈ next x, y ∈ nodes) {f : Frontier α}
    (hf : ∀ x ∈ f.queue, x ∈ nodes) :
    takeUp next keep f = .done (keptAtEnd next keep nodes f) ∨
      ∃ f', takeUp next keep f = .again f' ∧ (∀ x ∈ f'.queue, x ∈ nodes) ∧ Closer nodes f' f ∧
        keptAtEnd next keep nodes f' = keptAtEnd next keep nodes f := by
  obtain ⟨queue, taken, kept⟩ := f
  cases queue with
  | nil => exact .inl (by simp [takeUp, keptAtEnd, waiting, breadthFirst])
  | cons x queue =>
    have hxn := hf x List.mem_cons_self
    have hrest : ∀ y ∈ queue, y ∈ nodes := fun y hy => hf y (List.mem_cons_of_mem x hy)
    refine .inr ?_
    by_cases hx : x ∈ taken
    · refine ⟨⟨queue, taken, kept⟩, if_pos hx, hrest, Prod.Lex.right _ (Nat.lt_succ_self _), ?_⟩
      rw [keptAtEnd, keptAtEnd, waiting_cons_of_mem hx, untouched_cons_of_mem hx]
    · by_cases hk : keep x = true
      · refine ⟨⟨queue, x :: taken, kept ++ [x]⟩, by simp [takeUp, hx, hk], hrest,
          closer_of_taken hxn hx _ _, ?_⟩
        rw [keptAtEnd, keptAtEnd, breadthFirst_waiting_cons hx (List.forall_mem_nil _) (if_pos hk),
          List.filter_cons_of_pos hk, List.append_nil, List.append_assoc, List.singleton_append]
      · refine ⟨⟨queue ++ next x, x :: taken, kept⟩, by simp [takeUp, hx, hk], fun y hy => ?_,
          closer_of_taken hxn hx _ _, ?_⟩
        · exact (List.mem_append.1 hy).elim (hrest y) (hnext x hxn y)
        · rw [keptAtEnd, keptAtEnd,
            breadthFirst_waiting_cons hx (hnext x hxn) (if_neg hk), List.filter_cons_of_neg hk]

/-- Taking nodes up from the queue ends on every graph, and finds what the search finds that walks
on from the nodes that are not kept. -/
theorem takeUp_endsIn (hnext : ∀ x ∈ nodes, ∀ y ∈ next x, y ∈ nodes) {start : List α}
    (hstart : ∀ x ∈ start, x ∈ nodes) :
    Turn.EndsIn (takeUp next keep) ⟨start, [], []⟩
      ((reach (fun x => if keep x then [] else next x) nodes start).filter keep) := by
  have hall : start.filter (· ∈ nodes) = start :=
    List.filter_eq_self.2 fun x hx => decide_eq_true (hstart x hx)
  have hwaiting : waiting start [] = start.eraseDups := by
    rw [waiting, List.filter_eq_self.2 (by simp)]
  have hend : keptAtEnd next keep nodes ⟨start, [], []⟩ =
      (reach (fun x => if keep x then [] else next x) nodes start).filter keep := by
    simp [keptAtEnd, reach, hall, hwaiting, untouched, List.mem_eraseDups]
  exact hend ▸ Turn.EndsIn.of_wellFounded (closer_wellFounded nodes)
    (P := fun f => ∀ x ∈ f.queue, x ∈ nodes) (fun _ hf => takeUp_turn hnext hf) hstart

end TakeUp

end Search
end FlowPlan
