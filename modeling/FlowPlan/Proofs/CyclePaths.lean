import FlowPlan.Proofs.Levels
import Mathlib

/-!
What the search for cycles returns.

The search is a recursion whose depth nothing bounds by itself: it goes down at each node that has
not been met, and comes back.  `Explores` is this recursion as a relation.  Nodes are met once, so
it ends on every graph, and the depth at which `walk` gives up is never reached.  What is on the
path leads to what is met next, and therefore each path that is returned is a cycle.
-/

namespace FlowPlan
namespace Cycle

open Relation

variable {α : Type} [DecidableEq α] {next : α → List α}

/-! ## The recursion without a bound -/

/-- Some nodes behind the last one of a path are taken up in turn.  A node that has not been met is
walked on from, and a node of the path closes a cycle. -/
inductive Explores (next : α → List α) : List α → List α → Walk α → Walk α → Prop
  | done {path : List α} {w : Walk α} : Explores next path [] w w
  | unmet {path ys : List α} {y : α} {w below w' : Walk α} (hy : y ∈ w.unmet)
      (down : Explores next (path ++ [y]) (next y)
        { w with unmet := w.unmet.filter (· ≠ y) } below)
      (rest : Explores next path ys below w') : Explores next path (y :: ys) w w'
  | onPath {path ys : List α} {y : α} {w w' : Walk α} (hy : y ∉ w.unmet) (hp : y ∈ path)
      (rest : Explores next path ys { w with cycles := w.cycles ++ [closing path y] } w') :
      Explores next path (y :: ys) w w'
  | finished {path ys : List α} {y : α} {w w' : Walk α} (hy : y ∉ w.unmet) (hp : y ∉ path)
      (rest : Explores next path ys w w') : Explores next path (y :: ys) w w'

namespace Explores

variable {path ys : List α} {w w' w'' : Walk α}

theorem unique (h : Explores next path ys w w') (h' : Explores next path ys w w'') :
    w' = w'' := by
  induction h generalizing w'' with
  | done => cases h'; rfl
  | unmet hy _ _ ihdown ihrest =>
    cases h' with
    | unmet _ down rest =>
      obtain rfl := ihdown down
      exact ihrest rest
    | onPath hn => exact absurd hy hn
    | finished hn => exact absurd hy hn
  | onPath hy hp _ ih =>
    cases h' with
    | unmet hm => exact absurd hm hy
    | onPath _ _ rest => exact ih rest
    | finished _ hn => exact absurd hp hn
  | finished hy hp _ ih =>
    cases h' with
    | unmet hm => exact absurd hm hy
    | onPath _ hn => exact absurd hn hp
    | finished _ _ rest => exact ih rest

theorem unmet_sublist (h : Explores next path ys w w') : w'.unmet.Sublist w.unmet := by
  induction h with
  | done => exact .refl _
  | unmet _ _ _ ihdown ihrest => exact ihrest.trans (ihdown.trans List.filter_sublist)
  | onPath _ _ _ ih => exact ih
  | finished _ _ _ ih => exact ih

end Explores

/-! ## The depth is enough -/

/-- Where walks of some depth follow the recursion from smaller sets of unmet nodes, taking up
nodes in turn does. -/
theorem explores_foldl_visit {depth : Nat}
    (hwalk : ∀ (path : List α) (y : α) (w : Walk α), w.unmet.length < depth →
      Explores next (path ++ [y]) (next y) w (walk next depth path y w))
    (path ys : List α) (w : Walk α) (hw : w.unmet.length ≤ depth) :
    Explores next path ys w (ys.foldl (visit next depth path) w) := by
  induction ys generalizing w with
  | nil => exact .done
  | cons y ys ih =>
    rw [List.foldl_cons, visit]
    split
    case isTrue hy =>
      have hlt := length_meet_lt hy
      have hdown := hwalk path y { w with unmet := w.unmet.filter (· ≠ y) }
        (Nat.lt_of_lt_of_le hlt hw)
      refine .unmet hy hdown (ih _ ?_)
      have hle := hdown.unmet_sublist.length_le
      exact Nat.le_trans hle (Nat.le_of_lt (Nat.lt_of_lt_of_le hlt hw))
    case isFalse hy =>
      split
      case isTrue hp => exact .onPath hy hp (ih _ hw)
      case isFalse hp => exact .finished hy hp (ih _ hw)

/-- A walk whose depth is above the number of unmet nodes follows the recursion. -/
theorem explores_walk (depth : Nat) : ∀ (path : List α) (x : α) (w : Walk α),
    w.unmet.length < depth → Explores next (path ++ [x]) (next x) w (walk next depth path x w) := by
  induction depth with
  | zero => exact fun _ _ _ hw => absurd hw (Nat.not_lt_zero _)
  | succ depth ih =>
    intro path x w hw
    rw [walk_succ]
    exact explores_foldl_visit ih (path ++ [x]) (next x) w (Nat.le_of_lt_succ hw)

/-- The recursion from all nodes in turn ends, with the cycles that the search returns. -/
theorem exists_explores (next : α → List α) (nodes : List α) :
    ∃ w, Explores next [] nodes { unmet := nodes, cycles := [] } w ∧
      w.cycles = closed next nodes := by
  have hfrom : walkFrom next nodes.length = visit next nodes.length [] := by
    funext w x
    rw [walkFrom, visit, if_neg List.not_mem_nil]
  refine ⟨_, explores_foldl_visit (explores_walk nodes.length) [] nodes _ (Nat.le_refl _), ?_⟩
  rw [closed, hfrom]

/-! ## Every path that is returned is a cycle -/

/-- Each node leads to the next one and the last one to the first, and no node comes twice. -/
structure IsCircle (leads : α → α → Prop) (c : List α) : Prop where
  ne_nil : c ≠ []
  nodup : c.Nodup
  follows : c.IsChain leads
  returns : ∀ x ∈ c.getLast?, ∀ y ∈ c.head?, leads x y

/-- The path of the recursion: its nodes lead to each other in turn and have been met. -/
structure IsPath (next : α → List α) (path : List α) (w : Walk α) : Prop where
  nodup : path.Nodup
  follows : path.IsChain fun x y => y ∈ next x
  met : ∀ p ∈ path, p ∉ w.unmet

theorem closing_append {before behind : List α} {y : α} (hy : y ∉ before) :
    closing (before ++ y :: behind) y = y :: behind := by
  rw [closing, List.dropWhile_append_of_pos]
  · simp
  · intro a ha
    have hne : a ≠ y := fun heq => hy (heq ▸ ha)
    simpa using hne

namespace IsPath

variable {path : List α} {w w' : Walk α} {y : α}

omit [DecidableEq α] in
theorem later (h : IsPath next path w) (hsub : w'.unmet.Sublist w.unmet) : IsPath next path w' :=
  ⟨h.nodup, h.follows, fun p hp hmem => h.met p hp (hsub.subset hmem)⟩

theorem extend (h : IsPath next path w) (hy : y ∈ w.unmet)
    (hleads : ∀ x ∈ path.getLast?, y ∈ next x) :
    IsPath next (path ++ [y]) { w with unmet := w.unmet.filter (· ≠ y) } where
  nodup := by
    refine List.nodup_append.2 ⟨h.nodup, List.nodup_singleton y, fun p hp q hq heq => ?_⟩
    rw [List.mem_singleton.1 hq] at heq
    exact h.met p hp (heq ▸ hy)
  follows := by
    refine List.isChain_append.2 ⟨h.follows, .singleton y, fun x hx z hz => ?_⟩
    rw [List.head?_cons, Option.mem_some_iff] at hz
    exact hz ▸ hleads x hx
  met := by
    intro p hp hmem
    obtain ⟨hmem, hne⟩ := List.mem_filter.1 hmem
    rcases List.mem_append.1 hp with hp | hp
    · exact h.met p hp hmem
    · simp [List.mem_singleton.1 hp] at hne

/-- The end of the path from a node on is a cycle if the last node leads to it. -/
theorem isCircle_closing (h : IsPath next path w) (hy : y ∈ path)
    (hleads : ∀ x ∈ path.getLast?, y ∈ next x) :
    IsCircle (fun x y => y ∈ next x) (closing path y) := by
  obtain ⟨before, behind, rfl, hbefore⟩ := List.eq_append_cons_of_mem hy
  have hsuffix : (y :: behind) <:+ before ++ y :: behind := List.suffix_append _ _
  rw [closing_append hbefore]
  refine ⟨List.cons_ne_nil _ _, h.nodup.sublist hsuffix.sublist, h.follows.suffix hsuffix, ?_⟩
  intro x hx z hz
  rw [List.head?_cons, Option.mem_some_iff] at hz
  refine hz ▸ hleads x ?_
  rw [List.getLast?_append_of_ne_nil _ (List.cons_ne_nil _ _)]
  exact hx

end IsPath

/-- What the recursion adds to the cycles found so far are cycles. -/
theorem Explores.isCircle_of_mem {path ys : List α} {w w' : Walk α}
    (h : Explores next path ys w w') (hpath : IsPath next path w)
    (hleads : ∀ y ∈ ys, ∀ x ∈ path.getLast?, y ∈ next x) :
    ∀ c ∈ w'.cycles, c ∈ w.cycles ∨ IsCircle (fun x y => y ∈ next x) c := by
  induction h with
  | done => exact fun c hc => .inl hc
  | @unmet path ys y w below w' hy down rest ihdown ihrest =>
    -- Below, the path ends with this node.  Behind it the path is as before, and fewer are unmet.
    have hbelow := hpath.later (down.unmet_sublist.trans List.filter_sublist)
    have hin := ihdown (hpath.extend hy (hleads y List.mem_cons_self)) fun z hz x hx => by
      rw [List.getLast?_concat, Option.mem_some_iff] at hx
      exact hx ▸ hz
    intro c hc
    rcases ihrest hbelow (fun z hz => hleads z (List.mem_cons_of_mem y hz)) c hc with hc | hc
    · exact hin c hc
    · exact .inr hc
  | @onPath path ys y w w' hy hp rest ih =>
    have hclosed := hpath.isCircle_closing hp (hleads y List.mem_cons_self)
    intro c hc
    rcases ih (hpath.later (.refl _)) (fun z hz => hleads z (List.mem_cons_of_mem y hz)) c hc
      with hc | hc
    · rcases List.mem_append.1 hc with hc | hc
      · exact .inl hc
      · exact .inr (List.mem_singleton.1 hc ▸ hclosed)
    · exact .inr hc
  | finished _ _ _ ih =>
    exact ih hpath fun z hz => hleads z (List.mem_cons_of_mem _ hz)

theorem isCircle_of_mem_closed {nodes c : List α} (hc : c ∈ closed next nodes) :
    IsCircle (fun x y => y ∈ next x) c := by
  obtain ⟨w, hw, hcycles⟩ := exists_explores next nodes
  have hstart : IsPath next [] { unmet := nodes, cycles := [] } :=
    ⟨List.nodup_nil, List.isChain_nil, by simp⟩
  exact (hw.isCircle_of_mem hstart (by simp) c (hcycles ▸ hc)).resolve_left List.not_mem_nil

end Cycle

/-! ## The cycles of a graph -/

namespace FlowGraph

open Relation

variable {g : FlowGraph}

/-- A connection goes from the first element to the second. -/
def FeedsInto (g : FlowGraph) (i j : ElementId) : Prop :=
  ∃ x ∈ g.elements, ∃ y ∈ g.elements, x.id = i ∧ y.id = j ∧ g.Feeds x y

theorem feedsInto_iff (h : g.Coherent) {i j : ElementId} :
    g.FeedsInto i j ↔ j ∈ g.successors i := by
  constructor
  · intro hfeeds
    obtain ⟨x, hx, y, hy, rfl, rfl, hxy⟩ := hfeeds
    exact (h.mem_successors hx).2 ⟨y, hy, rfl, hxy⟩
  · intro hj
    obtain ⟨x, hx, rfl⟩ := exists_of_mem_successors hj
    obtain ⟨y, hy, rfl, hxy⟩ := (h.mem_successors hx).1 hj
    exact ⟨x, hx, y, hy, rfl, rfl, hxy⟩

/-- The search for cycles ends on every well-formed graph.  It returns cycles only, and at least one
if there are any. -/
theorem cycles_found (h : g.WellFormed) :
    (∃ w, Cycle.Explores g.successors [] g.elementIds { unmet := g.elementIds, cycles := [] } w ∧
      (∀ w', Cycle.Explores g.successors [] g.elementIds
        { unmet := g.elementIds, cycles := [] } w' → w' = w) ∧ w.cycles = g.cycles) ∧
      (g.cycles ≠ [] ↔ ∃ i, TransGen g.FeedsInto i i) ∧
      ∀ c ∈ g.cycles, Cycle.IsCircle g.FeedsInto c := by
  have hrel : g.FeedsInto = fun i j => j ∈ g.successors i := by
    funext i j
    exact propext (feedsInto_iff h.coherent)
  rw [hrel]
  refine ⟨?_, ?_, fun c hc => Cycle.isCircle_of_mem_closed hc⟩
  · obtain ⟨w, hw, hcycles⟩ := Cycle.exists_explores g.successors g.elementIds
    exact ⟨w, hw, fun w' hw' => hw'.unique hw, hcycles⟩
  · rw [ne_eq, cycles_eq_nil_iff h.coherent, not_forall_not]

/-- An operator that reads its own results, and two that read nothing but each other. -/
def eddies : FlowGraph :=
  let plain (name : String) : PortDecl := .plain name "Record"
  let work (name kind : String) (inputs : List PortDecl) : ElementDecl :=
    .operator name { name, kind, resources := [] } inputs [plain "out"] .none
  assemble
    [.input "in" "Record", work "a" "confluent" [plain "left", plain "right"],
      work "b" "update" [plain "in"], work "c" "update" [plain "in"]]
    [(0, 1), (3, 2), (7, 4), (5, 6)]

theorem eddies_found : eddies.WellFormed ∧ eddies.cycles = [[1], [2, 3]] ∧
    (∃ i, TransGen eddies.FeedsInto i i) ∧ Cycle.IsCircle eddies.FeedsInto [1] ∧
      Cycle.IsCircle eddies.FeedsInto [2, 3] := by
  have hwf : eddies.WellFormed := assemble_wellFormed _ (by simp)
  have hcycles : eddies.cycles = [[1], [2, 3]] := by cbv
  obtain ⟨-, hfound, hcircles⟩ := cycles_found hwf
  rw [hcycles] at hfound hcircles
  exact ⟨hwf, hcycles, hfound.1 (by simp), hcircles _ (by simp), hcircles _ (by simp)⟩

end FlowGraph
end FlowPlan
