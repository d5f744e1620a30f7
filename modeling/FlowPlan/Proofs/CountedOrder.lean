import FlowPlan.Proofs.FragmentGraphs
import FlowPlan.Proofs.Loops
import FlowPlan.Proofs.StagePlans
import FlowPlan.Table
import Mathlib.Data.List.Sort

/-!
The order by precedence, by counters.

A loop that puts things in an order does not look for what is ready in each turn.  It counts for
everything how much it still waits for, and keeps what waits for nothing in a set.  A turn places
the smallest of the set and lowers the counters of what waited for it, and what gets to zero joins
the set.

`counts_down` says that this loop comes to the order by precedence and never lowers a counter at
zero.  The invariant is that a counter is the number of needs that are not placed, and the set what
is ready in the sense of `isReady`.  Stages and the fragments of a unit are ordered by such loops,
which differ in what they do with the counter of what is placed: `stages_count_down` and
`fragments_count_down`.
-/

namespace FlowPlan

open Precedence

/-- Where the loop is. -/
structure Countdown where
  /-- For each number, what it still waits for. -/
  counters : List (Nat × Nat)
  /-- What waits for nothing, in ascending order. -/
  ready : List Nat
  placed : List Nat

namespace Countdown

open Turn

/-- What has nothing to wait for is ready. -/
def start (counters : List (Nat × Nat)) : Countdown :=
  { counters, ready := (counters.filter (·.2 = 0)).map (·.1), placed := [] }

/-- Lower the counter of something that is counted.  A counter at zero cannot be lowered. -/
def lower? (s : Countdown) (y : Nat) : Option Countdown :=
  match s.counters.lookup y with
  | none => some s
  | some 0 => none
  | some (n + 1) =>
    some { s with
      counters := s.counters.map fun c => if c.1 = y then (y, n) else c,
      ready := if n = 0 then Table.put id y s.ready else s.ready }

/-- The counters once a number is placed.  Its own may be dropped. -/
def kept (drops : Bool) (x : Nat) (counters : List (Nat × Nat)) : List (Nat × Nat) :=
  if drops then counters.filter (·.1 != x) else counters

/-- Place the smallest number that is ready, and lower those that wait for it. -/
def turn (drops : Bool) (waiting : Nat → List Nat) (s : Countdown) : Turn Countdown Countdown :=
  match s.ready with
  | [] => .done s
  | x :: ready =>
    let counters := kept drops x s.counters
    match (waiting x).foldlM lower? { counters, ready, placed := s.placed ++ [x] } with
    | none => .fails
    | some t => .again t

variable {needs waiting : Nat → List Nat} {candidates rest keys ns : List Nat} {x y : Nat}
  {count : Nat → Nat} {drops : Bool} {s : Countdown}

/-! ## Counters -/

/-- The counters of some numbers. -/
def table (count : Nat → Nat) (keys : List Nat) : List (Nat × Nat) :=
  keys.map fun y => (y, count y)

theorem lookup_table : (table count keys).lookup y = if y ∈ keys then some (count y) else none := by
  induction keys with
  | nil => rfl
  | cons k keys ih =>
    rw [table, List.map_cons, List.lookup_cons, ← table, ih]
    by_cases hk : y = k
    · subst hk
      simp
    · simp [hk, beq_false_of_ne hk]

theorem map_fst_table : (table count keys).map (·.1) = keys := by
  rw [table, List.map_map]
  exact List.map_id _

theorem table_congr {count' : Nat → Nat} (h : ∀ y ∈ keys, count y = count' y) :
    table count keys = table count' keys :=
  List.map_congr_left fun y hy => by rw [h y hy]

/-- Raise a counter. -/
def raise (counters : List (Nat × Nat)) (n : Nat) : List (Nat × Nat) :=
  counters.map fun c => if c.1 = n then (c.1, c.2 + 1) else c

theorem foldl_raise :
    ns.foldl raise (table count keys) = table (fun y => count y + ns.count y) keys := by
  induction ns generalizing count with
  | nil => rfl
  | cons n ns ih =>
    have hraise : raise (table count keys) n
        = table (fun y => if y = n then count y + 1 else count y) keys := by
      rw [raise, table, List.map_map]
      exact List.map_congr_left fun y _ => apply_ite (fun k => (y, k)) _ _ _ |>.symm
    rw [List.foldl_cons, hraise, ih]
    refine table_congr fun y _ => ?_
    rw [List.count_cons]
    grind

/-- Every one of some numbers has been lowered by one. -/
structure IsLowered (count : Nat → Nat) (keys ns : List Nat) (s t : Countdown) : Prop where
  counters : t.counters = table (fun y => if y ∈ ns then count y - 1 else count y) keys
  mem_ready : ∀ y, y ∈ t.ready ↔ y ∈ s.ready ∨ (y ∈ ns ∧ y ∈ keys ∧ count y = 1)
  ascending : s.ready.Pairwise (· < ·) → t.ready.Pairwise (· < ·)
  placed : t.placed = s.placed

/-- Nothing happens to a number that is not counted. -/
theorem IsLowered.of_not_mem (hs : s.counters = table count keys) (hy : y ∉ keys) :
    IsLowered count keys [y] s s where
  counters := hs.trans (table_congr fun z hz => by
    have hne : z ≠ y := fun heq => hy (heq ▸ hz)
    rw [if_neg fun hmem => hne (List.mem_singleton.1 hmem)])
  mem_ready := fun z => by
    have hnot : ¬ (z ∈ [y] ∧ z ∈ keys ∧ count z = 1) := fun hmem =>
      hy (List.mem_singleton.1 hmem.1 ▸ hmem.2.1)
    rw [or_iff_left hnot]
  ascending := id
  placed := rfl

theorem lower?_of_mem (hs : s.counters = table count keys) (hy : y ∈ keys) (hpos : 0 < count y) :
    ∃ t, s.lower? y = some t ∧ IsLowered count keys [y] s t := by
  obtain ⟨n, hn⟩ := Nat.exists_eq_succ_of_ne_zero (Nat.ne_of_gt hpos)
  rw [lower?, hs, lookup_table, if_pos hy, hn]
  refine ⟨_, rfl, ?counters, fun z => ?ready, fun hasc => ?ascending, rfl⟩
  case counters =>
    rw [table, List.map_map]
    refine List.map_congr_left fun z _ => ?_
    by_cases hz : z = y
    · subst hz
      simp [hn]
    · simp [hz]
  case ready =>
    by_cases hzero : n = 0
    · subst hzero
      simp only [if_true, Table.mem_put_id, List.mem_singleton]
      grind
    · simp only [hzero, if_false, List.mem_singleton]
      grind
  case ascending =>
    split
    · exact Table.put_ascending hasc
    · exact hasc

theorem lower?_of_pos (hs : s.counters = table count keys) (hpos : y ∈ keys → 0 < count y) :
    ∃ t, s.lower? y = some t ∧ IsLowered count keys [y] s t := by
  by_cases hy : y ∈ keys
  · exact lower?_of_mem hs hy (hpos hy)
  · refine ⟨s, ?_, .of_not_mem hs hy⟩
    rw [lower?, hs, lookup_table, if_neg hy]

/-- Numbers that are lowered once each do not fall below zero. -/
theorem foldlM_lower? (hs : s.counters = table count keys) (hns : ns.Nodup)
    (hpos : ∀ y ∈ ns, y ∈ keys → 0 < count y) :
    ∃ t, ns.foldlM lower? s = some t ∧ IsLowered count keys ns s t := by
  induction ns generalizing s count with
  | nil => exact ⟨s, rfl, by simpa using hs, by simp, id, rfl⟩
  | cons z ns ih =>
    obtain ⟨hz, hns⟩ := List.nodup_cons.1 hns
    obtain ⟨s', hlow, hs'⟩ := lower?_of_pos hs (hpos z List.mem_cons_self)
    have hother : ∀ y ∈ ns, y ∉ [z] := fun y hy hmem => hz (List.mem_singleton.1 hmem ▸ hy)
    obtain ⟨t, hfold, ht⟩ := ih hs'.counters hns fun y hy hk => by
      rw [if_neg (hother y hy)]
      exact hpos y (List.mem_cons_of_mem z hy) hk
    refine ⟨t, by rw [List.foldlM_cons, hlow]; exact hfold, ?_, fun y => ?_,
      fun hasc => ht.ascending (hs'.ascending hasc), ht.placed.trans hs'.placed⟩
    · rw [ht.counters]
      exact table_congr fun y _ => by grind
    · rw [ht.mem_ready, hs'.mem_ready]
      grind

/-! ## What is not placed -/

/-- How many needs are among some numbers. -/
def pending (needs : Nat → List Nat) (rest : List Nat) (y : Nat) : Nat :=
  ((needs y).filter (· ∈ rest)).length

theorem pending_eq_zero_iff : pending needs rest y = 0 ↔ isReady needs rest y = true := by
  simp [pending, isReady, List.length_eq_zero_iff]

theorem pending_pos (hx : x ∈ rest) (hneed : x ∈ needs y) : 0 < pending needs rest y :=
  List.length_pos_of_mem (List.mem_filter.2 ⟨hneed, decide_eq_true hx⟩)

theorem pending_erase (hn : (needs y).Nodup) (hrest : rest.Nodup) (hx : x ∈ rest) :
    pending needs (rest.erase x) y
      = if x ∈ needs y then pending needs rest y - 1 else pending needs rest y := by
  have hfilter : (needs y).filter (· ∈ rest.erase x) = ((needs y).filter (· ∈ rest)).erase x := by
    rw [(hn.filter _).erase_eq_filter, List.filter_filter]
    refine List.filter_congr fun z _ => ?_
    rw [Bool.eq_iff_iff, decide_eq_true_iff, hrest.mem_erase_iff, Bool.and_eq_true, bne_iff_ne,
      decide_eq_true_iff]
  rw [pending, hfilter, List.length_erase, ← pending]
  simp [hx]

/-! ## The loop -/

/-- Who waits for whom, seen from both sides. -/
structure Awaits (needs waiting : Nat → List Nat) (candidates : List Nat) : Prop where
  mem_waiting : ∀ x, ∀ y ∈ candidates, y ∈ waiting x ↔ x ∈ needs y
  needs_nodup : ∀ y, (needs y).Nodup
  waiting_nodup : ∀ x, (waiting x).Nodup

/-- The numbers that have a counter. -/
def counted (drops : Bool) (candidates rest : List Nat) : List Nat :=
  if drops then rest else candidates

/-- The state of the loop when some candidates are not placed. -/
structure Counts (needs : Nat → List Nat) (drops : Bool) (candidates rest : List Nat)
    (s : Countdown) : Prop where
  sublist : rest.Sublist candidates
  counters : s.counters = table (pending needs rest) (counted drops candidates rest)
  ready : s.ready = rest.filter (isReady needs rest)
  /-- What is placed waits for nothing. -/
  settled : ∀ y ∈ candidates, y ∉ rest → pending needs rest y = 0

theorem counted_sublist (h : rest.Sublist candidates) :
    (counted drops candidates rest).Sublist candidates := by
  cases drops with
  | false => exact List.Sublist.refl _
  | true => exact h

theorem subset_counted (h : rest.Sublist candidates) (hy : y ∈ rest) :
    y ∈ counted drops candidates rest := by
  cases drops with
  | false => exact h.subset hy
  | true => exact hy

theorem kept_table (hrest : rest.Nodup) :
    kept drops x (table count (counted drops candidates rest))
      = table count (counted drops candidates (rest.erase x)) := by
  cases drops with
  | false => rfl
  | true =>
    simp only [kept, counted, if_true, hrest.erase_eq_filter, table, List.filter_map]
    rfl

theorem Counts.start (needs : Nat → List Nat) (drops : Bool) (candidates : List Nat) :
    Counts needs drops candidates candidates
      (start (table (pending needs candidates) candidates)) where
  sublist := List.Sublist.refl _
  counters := by cases drops <;> rfl
  ready := by
    have hready : ∀ y, decide (pending needs candidates y = 0) = isReady needs candidates y :=
      fun y => by rw [Bool.eq_iff_iff, decide_eq_true_iff, pending_eq_zero_iff]
    simp only [Countdown.start, table, List.filter_map, List.map_map, Function.comp_def, hready,
      List.map_id']
  settled := fun y hy hnot => absurd hy hnot

/-- The set after a turn, from what has been lowered. -/
theorem mem_ready_erase (hw : Awaits needs waiting candidates) (hsub : rest.Sublist candidates)
    (hrest : rest.Nodup) (hx : x ∈ rest) (hxready : pending needs rest x = 0)
    (hsettled : ∀ y ∈ candidates, y ∉ rest → pending needs rest y = 0) :
    (y ∈ rest ∧ y ≠ x ∧ pending needs rest y = 0) ∨
        (y ∈ waiting x ∧ y ∈ counted drops candidates (rest.erase x) ∧ pending needs rest y = 1) ↔
      y ∈ rest.erase x ∧ pending needs (rest.erase x) y = 0 := by
  have hcounted : (counted drops candidates (rest.erase x)).Sublist candidates :=
    counted_sublist (List.erase_sublist.trans hsub)
  rw [hrest.mem_erase_iff, pending_erase (hw.needs_nodup y) hrest hx]
  constructor
  · intro hready
    rcases hready with ⟨hy, hne, hzero⟩ | ⟨hwait, hc, hone⟩
    · exact ⟨⟨hne, hy⟩, by simp [hzero]⟩
    · have hyc := hcounted.subset hc
      have hy : y ∈ rest := by
        by_contra hnot
        rw [hsettled y hyc hnot] at hone
        cases hone
      have hne : y ≠ x := fun heq => by
        rw [heq, hxready] at hone
        cases hone
      exact ⟨⟨hne, hy⟩, by rw [if_pos ((hw.mem_waiting x y hyc).1 hwait), hone]⟩
  · intro hready
    obtain ⟨⟨hne, hy⟩, hzero⟩ := hready
    by_cases hneed : x ∈ needs y
    · rw [if_pos hneed] at hzero
      have hpos := pending_pos hx hneed
      exact .inr ⟨(hw.mem_waiting x y (hsub.subset hy)).2 hneed,
        subset_counted (List.erase_sublist.trans hsub) (hrest.mem_erase_iff.2 ⟨hne, hy⟩), by omega⟩
    · rw [if_neg hneed] at hzero
      exact .inl ⟨hy, hne, hzero⟩

/-- A turn places what the order by precedence places. -/
theorem Counts.step (hasc : candidates.Pairwise (· < ·)) (hw : Awaits needs waiting candidates)
    (h : Counts needs drops candidates rest s)
    (hfind : rest.find? (isReady needs rest) = some x) :
    ∃ t, turn drops waiting s = .again t ∧ Counts needs drops candidates (rest.erase x) t ∧
      t.placed = s.placed ++ [x] := by
  have hsorted : rest.Pairwise (· < ·) := hasc.sublist h.sublist
  have hrest : rest.Nodup := hsorted.imp Nat.ne_of_lt
  have hx : x ∈ rest := List.mem_of_find?_eq_some hfind
  have hxready : pending needs rest x = 0 := pending_eq_zero_iff.2 (List.find?_some hfind)
  have hsub : (rest.erase x).Sublist candidates := List.erase_sublist.trans h.sublist
  have hhead : s.ready.head? = some x := by rw [h.ready, List.head?_filter, hfind]
  obtain ⟨others, hothers⟩ := List.head?_eq_some_iff.1 hhead
  have hready : (x :: others).Pairwise (· < ·) := by
    rw [← hothers, h.ready]
    exact hsorted.filter _
  have hmem : ∀ y, y ∈ others ↔ y ∈ rest ∧ y ≠ x ∧ pending needs rest y = 0 := by
    intro y
    have hne : y ∈ others → y ≠ x := fun hy heq =>
      Nat.lt_irrefl x ((List.pairwise_cons.1 hready).1 x (heq ▸ hy))
    have hall : y ∈ x :: others ↔ y ∈ rest ∧ pending needs rest y = 0 := by
      rw [← hothers, h.ready, List.mem_filter, pending_eq_zero_iff]
    grind
  have hcounters : kept drops x s.counters
      = table (pending needs rest) (counted drops candidates (rest.erase x)) := by
    rw [h.counters, kept_table hrest]
  have hpos : ∀ y ∈ waiting x, y ∈ counted drops candidates (rest.erase x) →
      0 < pending needs rest y := fun y hy hc =>
    pending_pos hx ((hw.mem_waiting x y ((counted_sublist hsub).subset hc)).1 hy)
  obtain ⟨t, hfold, ht⟩ := foldlM_lower?
    (s := ⟨kept drops x s.counters, others, s.placed ++ [x]⟩) hcounters (hw.waiting_nodup x) hpos
  refine ⟨t, by simp only [turn, hothers, hfold], ⟨hsub, ?counters, ?ready, ?settled⟩, ht.placed⟩
  case counters =>
    rw [ht.counters]
    refine table_congr fun y hy => ?_
    rw [pending_erase (hw.needs_nodup y) hrest hx]
    simp only [hw.mem_waiting x y ((counted_sublist hsub).subset hy)]
  case ready =>
    refine List.Pairwise.eq_of_mem_iff (ht.ascending (List.pairwise_cons.1 hready).2)
      ((hasc.sublist hsub).filter _) fun y => ?_
    rw [ht.mem_ready, hmem, mem_ready_erase hw h.sublist hrest hx hxready h.settled,
      List.mem_filter, pending_eq_zero_iff]
  case settled =>
    intro y hy hnot
    have hzero : pending needs rest y = 0 := by
      by_cases heq : y = x
      · rw [heq, hxready]
      · exact h.settled y hy fun hmem => hnot (hrest.mem_erase_iff.2 ⟨heq, hmem⟩)
    rw [pending_erase (hw.needs_nodup y) hrest hx, hzero]
    exact ite_self 0

theorem Counts.endsIn (hasc : candidates.Pairwise (· < ·)) (hw : Awaits needs waiting candidates)
    (h : Counts needs drops candidates rest s) :
    ∃ t, EndsIn (turn drops waiting) s t ∧ t.placed = s.placed ++ (order needs rest).1 ∧
      t.counters.map (·.1) = counted drops candidates (order needs rest).2 := by
  induction rest using order.induct needs generalizing s with
  | case1 rest hnone =>
    have hready : s.ready = [] := by
      rw [h.ready, List.filter_eq_nil_iff]
      exact List.find?_eq_none.1 hnone
    rw [order_of_none hnone]
    refine ⟨s, .done (by rw [turn, hready]), (List.append_nil _).symm, ?_⟩
    rw [h.counters, map_fst_table]
  | case2 rest x hfind _ _ _ ih =>
    obtain ⟨s', hagain, hs', hplaced⟩ := h.step hasc hw hfind
    obtain ⟨t, hends, ht, hleft⟩ := ih hs'
    rw [order_of_some hfind]
    refine ⟨t, .again hagain hends, ?_, hleft⟩
    rw [ht, hplaced, List.append_assoc, List.singleton_append]

/-- The loop comes to the order by precedence.  If it drops the counters of what is placed, those
that are left are of what is left over. -/
theorem counts_down (drops : Bool) (hasc : candidates.Pairwise (· < ·))
    (hw : Awaits needs waiting candidates) :
    ∃ t, EndsIn (turn drops waiting) (start (table (pending needs candidates) candidates)) t ∧
      t.placed = (order needs candidates).1 ∧
      t.counters.map (·.1) = counted drops candidates (order needs candidates).2 :=
  (Counts.start needs drops candidates).endsIn hasc hw

/-- The needs of a candidate, counted from those that are needed. -/
theorem pending_eq_count (hasc : rest.Pairwise (· < ·)) (hw : Awaits needs waiting candidates)
    (hy : y ∈ candidates) : pending needs rest y = (rest.flatMap waiting).count y := by
  induction rest with
  | nil => simp [pending]
  | cons x rest ih =>
    have hnodup : (x :: rest).Nodup := hasc.imp Nat.ne_of_lt
    have herase := pending_erase (hw.needs_nodup y) hnodup (List.mem_cons_self (a := x))
    rw [List.erase_cons_head, ih (List.pairwise_cons.1 hasc).2] at herase
    rw [List.flatMap_cons, List.count_append, herase]
    by_cases hneed : x ∈ needs y
    · have hpos : 0 < pending needs (x :: rest) y := pending_pos List.mem_cons_self hneed
      rw [if_pos hneed, List.count_eq_one_of_mem (hw.waiting_nodup x)
        ((hw.mem_waiting x y hy).2 hneed)]
      omega
    · rw [if_neg hneed, List.count_eq_zero_of_not_mem fun hmem =>
        hneed ((hw.mem_waiting x y hy).1 hmem), Nat.zero_add]

end Countdown

/-! ## Stages and fragments -/

namespace StageGraph

open Countdown

/-- The smallest blocks of the stages, before they are put in an order. -/
def leadersOf (g : FlowGraph) : List BlockId :=
  leaders (blocksOf g) (classes (blocksOf g) (linksOf g))

/-- For each stage, by its smallest block, the stages that it reads from. -/
def dependencies (g : FlowGraph) : List (BlockId × List BlockId) :=
  (leadersOf g).map fun x => (x, ascending (needsOf g x))

/-- The stages that read from one. -/
def readingFrom (dependencies : List (BlockId × List BlockId)) (x : BlockId) : List BlockId :=
  (dependencies.filter (·.2.contains x)).map (·.1)

theorem readingFrom_dependencies (g : FlowGraph) (x : BlockId) :
    readingFrom (dependencies g) x
      = (leadersOf g).filter fun y => (ascending (needsOf g y)).contains x := by
  rw [readingFrom, dependencies, List.filter_map, List.map_map]
  exact List.map_id _

/-- The stages are ordered by counters that are dropped when a stage is placed.  Those that are left
are of the stages that wait for each other. -/
theorem stages_count_down (g : FlowGraph) :
    ∃ t, Turn.EndsIn (turn true (readingFrom (dependencies g)))
        (start ((dependencies g).map fun d => (d.1, d.2.length))) t ∧
      (t.placed, t.counters.map (·.1)) = leaderOrder g := by
  have hasc : (leadersOf g).Pairwise (· < ·) := leaders_ascending g
  have hw : Awaits (fun y => ascending (needsOf g y)) (readingFrom (dependencies g))
      (leadersOf g) :=
    { mem_waiting := fun x y hy => by
        rw [readingFrom_dependencies, List.mem_filter, List.contains_iff_mem, and_iff_right hy]
      needs_nodup := fun y => ascending_nodup _
      waiting_nodup := fun x => by
        rw [readingFrom_dependencies]
        exact (hasc.imp Nat.ne_of_lt).filter _ }
  -- Every stage that is read from is there, so all needs of a stage are pending.
  have hcounters : ((dependencies g).map fun d => (d.1, d.2.length))
      = table (pending (fun y => ascending (needsOf g y)) (leadersOf g)) (leadersOf g) := by
    rw [dependencies, List.map_map]
    refine List.map_congr_left fun y _ => ?_
    have hall : (ascending (needsOf g y)).filter (· ∈ leadersOf g) = ascending (needsOf g y) := by
      refine List.filter_eq_self.2 fun z hz => decide_eq_true ?_
      exact (stageLeaders_perm g).mem_iff.1
        (mem_stageLeaders_of_mem_needsOf (mem_ascending.1 hz)).2
    rw [pending, hall]
    rfl
  have hneeds : ∀ y z, z ∈ ascending (needsOf g y) ↔ z ∈ needsOf g y := fun y z => mem_ascending
  obtain ⟨t, hends, hplaced, hleft⟩ := counts_down true hasc hw
  refine ⟨t, hcounters ▸ hends, ?_⟩
  rw [hplaced, hleft, leaderOrder, ← leadersOf, counted, if_pos rfl, order_congr hneeds]

end StageGraph

namespace Fragments

open Countdown

/-- The fragments that one feeds, each once. -/
def fed (fs : Fragments) (f : FragmentId) : List FragmentId := ascending (fs.fedBy f)

/-- How many of some fragments feed each of them. -/
def indegrees (fs : Fragments) (reached : List FragmentId) : List (FragmentId × Nat) :=
  (reached.flatMap fs.fed).foldl raise (reached.map fun f => (f, 0))

/-- The fragments that are reached are ordered by counters that stay. -/
theorem fragments_count_down (fs : Fragments) (heads : List FragmentId) :
    ∃ t, Turn.EndsIn (turn false fs.fed)
        (start (fs.indegrees (ascending (Search.reach fs.fedBy (fs.list.map (·.id)) heads)))) t ∧
      t.placed = fs.orderedFrom heads := by
  generalize hreached : ascending (Search.reach fs.fedBy (fs.list.map (·.id)) heads) = reached
  have hasc : reached.Pairwise (· < ·) := hreached ▸ ascending_pairwise _
  have hw : Awaits (fun n => ascending (fs.feeding n)) fs.fed reached :=
    { mem_waiting := fun f n _ => by
        rw [fed, mem_ascending, mem_ascending, mem_fedBy, mem_feeding]
      needs_nodup := fun n => ascending_nodup _
      waiting_nodup := fun f => ascending_nodup _ }
  have hcounters : fs.indegrees reached
      = table (pending (fun n => ascending (fs.feeding n)) reached) reached := by
    rw [indegrees, ← table, foldl_raise]
    refine table_congr fun n hn => ?_
    rw [pending_eq_count hasc hw hn, Nat.zero_add]
  have hneeds : ∀ n f, f ∈ ascending (fs.feeding n) ↔ f ∈ fs.feeding n := fun n f => mem_ascending
  obtain ⟨t, hends, hplaced, -⟩ := counts_down false hasc hw
  refine ⟨t, hcounters ▸ hends, ?_⟩
  rw [hplaced, orderedFrom, hreached, order_congr hneeds]

end Fragments
end FlowPlan
