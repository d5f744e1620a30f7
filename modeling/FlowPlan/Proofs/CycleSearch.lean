import FlowPlan.Graph.Cycle
import Mathlib.Logic.Relation

/-!
What the search for cycles finds: nothing exactly if no node can be reached from itself.

A node that has been met and is not on the path any more is finished, and from a finished node
every walk ends as long as no cycle was closed.  `walk_spec` carries this through the search.  In
the other direction every node of the path leads to its last node, so a cycle that is closed is one.
-/

namespace FlowPlan
namespace Cycle

open Relation

variable {α : Type} {next : α → List α} {nodes : List α}

/-- Every walk from the node ends. -/
def Ends (next : α → List α) (x : α) : Prop := Acc (fun y x => y ∈ next x) x

theorem Ends.not_reached {x : α} (h : Ends next x) : ¬ TransGen (fun x y => y ∈ next x) x x := by
  unfold Ends at h
  induction h with
  | intro x _ ih =>
    intro hloop
    obtain ⟨y, hy, hback⟩ := TransGen.head'_iff.1 hloop
    exact ih y hy (TransGen.tail' hback hy)

/-! ## A search that finds nothing -/

/-- The nodes that have been met are on the path, or every walk from them ends. -/
def Settled (next : α → List α) (nodes path : List α) (w : Walk α) : Prop :=
  ∀ y ∈ nodes, y ∉ w.unmet → y ∉ path → Ends next y

/-- From one point of the search to a later one: if no cycle was closed by then, some nodes turned
out to lead to walks that end. -/
structure Advances (next : α → List α) (nodes path ended : List α) (w w' : Walk α) : Prop where
  unmet : w'.unmet.Sublist w.unmet
  settled : w'.cycles = [] →
    w.cycles = [] ∧ Settled next nodes path w' ∧ ∀ y ∈ ended, Ends next y

/-- What advances the search at each node of a list advances it along the list. -/
theorem foldl_advances {f : Walk α → α → Walk α} {bound : Nat} {path : List α}
    (hf : ∀ y ∈ nodes, ∀ w : Walk α, w.unmet.length ≤ bound →
      (w.cycles = [] → Settled next nodes path w) → Advances next nodes path [y] w (f w y))
    (ys : List α) (hys : ∀ y ∈ ys, y ∈ nodes) (w : Walk α) (hw : w.unmet.length ≤ bound)
    (hs : w.cycles = [] → Settled next nodes path w) :
    Advances next nodes path ys w (ys.foldl f w) := by
  induction ys generalizing w with
  | nil => exact ⟨List.Sublist.refl _, fun hc => ⟨hc, hs hc, by simp⟩⟩
  | cons y ys ih =>
    have hfirst := hf y (hys y List.mem_cons_self) w hw hs
    have hrest := ih (fun z hz => hys z (List.mem_cons_of_mem y hz)) (f w y)
      (Nat.le_trans hfirst.unmet.length_le hw) fun hc => (hfirst.settled hc).2.1
    refine ⟨hrest.unmet.trans hfirst.unmet, fun hc => ?_⟩
    obtain ⟨hmid, hsettled, hends⟩ := hrest.settled hc
    obtain ⟨hstart, -, hy⟩ := hfirst.settled hmid
    refine ⟨hstart, hsettled, fun z hz => ?_⟩
    rcases List.mem_cons.1 hz with rfl | hz
    · exact hy z (List.mem_singleton_self z)
    · exact hends z hz

variable [DecidableEq α]

def visit (next : α → List α) (depth : Nat) (path : List α) (w : Walk α) (y : α) : Walk α :=
  if y ∈ w.unmet then walk next depth path y { w with unmet := w.unmet.filter (· ≠ y) }
  else if y ∈ path then { w with cycles := w.cycles ++ [closing path y] }
  else w

theorem walk_succ (next : α → List α) (depth : Nat) (path : List α) (x : α) (w : Walk α) :
    walk next (depth + 1) path x w = (next x).foldl (visit next depth (path ++ [x])) w := rfl

theorem Settled.meet {path : List α} {w : Walk α} (h : Settled next nodes path w) (y : α) :
    Settled next nodes (path ++ [y]) { w with unmet := w.unmet.filter (· ≠ y) } := by
  intro z hz hunmet hpath
  rw [List.mem_append, List.mem_singleton, not_or] at hpath
  refine h z hz (fun hmem => hunmet ?_) hpath.1
  exact List.mem_filter.2 ⟨hmem, by simpa using hpath.2⟩

theorem length_meet_lt {w : Walk α} {y : α} (hy : y ∈ w.unmet) :
    (w.unmet.filter (· ≠ y)).length < w.unmet.length :=
  List.length_filter_lt_length_iff_exists.2 ⟨y, hy, by simp⟩

/-- A walk finishes the node that it goes on from. -/
theorem walk_spec (hnext : ∀ x ∈ nodes, ∀ y ∈ next x, y ∈ nodes) (depth : Nat) :
    ∀ (path : List α) (x : α) (w : Walk α), x ∈ nodes → w.unmet.length < depth →
      (w.cycles = [] → Settled next nodes (path ++ [x]) w) →
        Advances next nodes path [x] w (walk next depth path x w) := by
  induction depth with
  | zero => exact fun _ _ _ _ hw => absurd hw (Nat.not_lt_zero _)
  | succ depth ih =>
    intro path x w hx hw hs
    have hvisit : ∀ y ∈ nodes, ∀ w : Walk α, w.unmet.length ≤ depth →
        (w.cycles = [] → Settled next nodes (path ++ [x]) w) →
          Advances next nodes (path ++ [x]) [y] w (visit next depth (path ++ [x]) w y) := by
      intro y hy w hw hs
      unfold visit
      split
      case isTrue hunmet =>
        -- The number of unmet nodes falls, so the depth is still enough.
        have hlt := length_meet_lt hunmet
        have hdown := ih (path ++ [x]) y { w with unmet := w.unmet.filter (· ≠ y) } hy
          (by show (w.unmet.filter (· ≠ y)).length < depth; omega) fun hc => (hs hc).meet y
        exact ⟨hdown.unmet.trans List.filter_sublist, hdown.settled⟩
      case isFalse hunmet =>
        split
        case isTrue =>
          -- A cycle was closed, and nothing is claimed.
          exact ⟨List.Sublist.refl _, fun hc => absurd hc (by simp)⟩
        case isFalse hpath =>
          refine ⟨List.Sublist.refl _, fun hc => ⟨hc, hs hc, fun z hz => ?_⟩⟩
          rw [List.mem_singleton.1 hz]
          exact hs hc y hy hunmet hpath
    have hall := foldl_advances hvisit (next x) (hnext x hx) w (Nat.le_of_lt_succ hw) hs
    rw [walk_succ]
    refine ⟨hall.unmet, fun hc => ?_⟩
    obtain ⟨hstart, hsettled, hends⟩ := hall.settled hc
    -- All neighbours are finished, and so `x` is when it leaves the path.
    have hx : Ends next x := Acc.intro x fun y hy => hends y hy
    refine ⟨hstart, fun z hz hunmet hpath => ?_, fun z hz => ?_⟩
    · by_cases hzx : z = x
      · exact hzx ▸ hx
      · exact hsettled z hz hunmet (by simp [hpath, hzx])
    · exact List.mem_singleton.1 hz ▸ hx

theorem walkFrom_spec (hnext : ∀ x ∈ nodes, ∀ y ∈ next x, y ∈ nodes) {depth : Nat} {w : Walk α}
    {x : α} (hx : x ∈ nodes) (hw : w.unmet.length ≤ depth)
    (hs : w.cycles = [] → Settled next nodes [] w) :
    Advances next nodes [] [x] w (walkFrom next depth w x) := by
  unfold walkFrom
  split
  case isTrue hunmet =>
    have hlt := length_meet_lt hunmet
    have hdown := walk_spec hnext depth [] x { w with unmet := w.unmet.filter (· ≠ x) } hx
      (by show (w.unmet.filter (· ≠ x)).length < depth; omega) fun hc => (hs hc).meet x
    exact ⟨hdown.unmet.trans List.filter_sublist, hdown.settled⟩
  case isFalse hunmet =>
    refine ⟨List.Sublist.refl _, fun hc => ⟨hc, hs hc, fun y hy => ?_⟩⟩
    rw [List.mem_singleton.1 hy]
    exact hs hc x hx hunmet List.not_mem_nil

/-- If the search closes no cycle, every walk from every node ends. -/
theorem ends_of_closed_eq_nil (hnext : ∀ x ∈ nodes, ∀ y ∈ next x, y ∈ nodes)
    (hclosed : closed next nodes = []) : ∀ x ∈ nodes, Ends next x := by
  have hstart : Settled next nodes [] { unmet := nodes, cycles := [] } :=
    fun y hy hunmet => absurd hy hunmet
  have hall := foldl_advances (fun x hx w hw hs => walkFrom_spec hnext hx hw hs) nodes
    (fun _ hx => hx) _ (Nat.le_refl _) fun _ => hstart
  exact (hall.settled hclosed).2.2

/-! ## A search that finds something -/

theorem cycles_walk (hacyclic : ∀ x, ¬ TransGen (fun x y => y ∈ next x) x x) (depth : Nat) :
    ∀ (path : List α) (x : α) (w : Walk α), (∀ p ∈ path, TransGen (fun x y => y ∈ next x) p x) →
      (walk next depth path x w).cycles = w.cycles := by
  induction depth with
  | zero => exact fun _ _ _ _ => rfl
  | succ depth ih =>
    intro path x w hpath
    have hto : ∀ y ∈ next x, ∀ p ∈ path ++ [x], TransGen (fun x y => y ∈ next x) p y := by
      intro y hy p hp
      rw [List.mem_append, List.mem_singleton] at hp
      rcases hp with hp | rfl
      · exact (hpath p hp).tail hy
      · exact .single hy
    have hvisit : ∀ y ∈ next x, ∀ w : Walk α,
        (visit next depth (path ++ [x]) w y).cycles = w.cycles := by
      intro y hy w
      unfold visit
      split
      · exact ih _ y _ (hto y hy)
      · split
        case isTrue hmem => exact absurd (hto y hy y hmem) (hacyclic y)
        case isFalse => rfl
    rw [walk_succ]
    exact List.foldlRecOn (motive := fun w' => w'.cycles = w.cycles) (next x) _ rfl
      fun w' hw' y hy => (hvisit y hy w').trans hw'

/-- A search closes no cycle exactly if no node is reached from itself. -/
theorem closed_eq_nil_iff (hnext : ∀ x ∈ nodes, ∀ y ∈ next x, y ∈ nodes)
    (hout : ∀ x, x ∉ nodes → next x = []) :
    closed next nodes = [] ↔ ∀ x, ¬ TransGen (fun x y => y ∈ next x) x x := by
  constructor
  · intro hclosed x hloop
    by_cases hx : x ∈ nodes
    · exact (ends_of_closed_eq_nil hnext hclosed x hx).not_reached hloop
    · obtain ⟨y, hy, -⟩ := TransGen.head'_iff.1 hloop
      rw [hout x hx] at hy
      cases hy
  · intro hacyclic
    have hfrom : ∀ (w : Walk α) (x : α), (walkFrom next nodes.length w x).cycles = w.cycles := by
      intro w x
      unfold walkFrom
      split
      · exact cycles_walk hacyclic _ [] x _ (by simp)
      · rfl
    refine List.foldlRecOn (motive := fun w => w.cycles = []) nodes (walkFrom next nodes.length)
      ?_ fun w hw x _ => (hfrom w x).trans hw
    rfl

end Cycle
end FlowPlan
