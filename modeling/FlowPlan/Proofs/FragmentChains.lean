import FlowPlan.Proofs.FragmentGraphs

/-!
What joins two elements of a block in one fragment.

The loop that makes a fragment looks at the next element only, and whether that begins a fragment
was decided when the block was cut.  `Continues` states both in terms of the flow: each of the two
elements is all that the other one has on its side of the block, and nothing else enters or leaves
between them.  A fragment holds an element behind another exactly where this is so, in graphs with
circles too, and the loop ends there because a circle that is entered has a start.
-/

namespace FlowPlan

open Relation

namespace Fragmentation
namespace Setting

variable {s : Setting} {x y e n : ElementId}

/-- Records go from one element of a block to another and nowhere else, and nothing else reaches the
second one. -/
structure Continues (s : Setting) (x y : ElementId) : Prop where
  successor : ∀ n, (n ∈ s.flow.successors x ∧ n ∈ s.block.elements) ↔ n = y
  predecessor : ∀ n, (n ∈ s.flow.predecessors y ∧ n ∈ s.block.elements) ↔ n = x
  connection : (s.flow.outgoing x).length = 1
  port : (s.flow.outputsOf x).length = 1
  notLeft : ∀ p ∈ s.block.outputs, s.flow.ownerId? p ≠ some x
  notEntered : ∀ p ∈ s.block.inputs, s.flow.ownerId? p ≠ some y
  processor : (s.processor x).isEmpty = true ∨
    (s.processor x).kind ≠ .lineEnd ∧ (s.processor x).kind ≠ .rendezvous

theorem isLeft_eq_false_iff :
    s.isLeft e = false ↔ ∀ p ∈ s.block.outputs, s.flow.ownerId? p ≠ some e := by
  rw [isLeft, ← Bool.not_eq_true, List.contains_iff_mem, List.mem_filterMap]
  simp

theorem isEntered_eq_false_iff :
    s.isEntered e = false ↔ ∀ p ∈ s.block.inputs, s.flow.ownerId? p ≠ some e := by
  rw [isEntered, ← Bool.not_eq_true, List.contains_iff_mem, List.mem_filterMap]
  simp

theorem endsChain_eq_false_iff {p : Processor} :
    p.endsChain = false ↔ p.isEmpty = true ∨ p.kind ≠ .lineEnd ∧ p.kind ≠ .rendezvous := by
  rw [Processor.endsChain]
  cases p.kind <;> simp

theorem predecessors_nodup (s : Setting) (e : ElementId) : (s.predecessors e).Nodup :=
  (nodup_eraseDups _).filter _

/-- An element that feeds another has a connection, at one of its outputs. -/
theorem outgoing_pos (hn : n ∈ s.flow.successors e) :
    0 < (s.flow.outgoing e).length ∧ 0 < (s.flow.outputsOf e).length := by
  rw [FlowGraph.successors, List.mem_eraseDups] at hn
  obtain ⟨c, hc, -⟩ := List.mem_filterMap.1 hn
  obtain ⟨p, hp, -⟩ := List.mem_flatMap.1 hc
  exact ⟨List.length_pos_of_mem hc, List.length_pos_of_mem hp⟩

section Continuing

variable (h : s.flow.Coherent) (hsub : ∀ e ∈ s.block.elements, ∃ x ∈ s.flow.elements, x.id = e)

include h hsub

theorem GoesOn.to_continues (hx : x ∈ s.block.elements) (hstep : s.GoesOn x y) :
    s.Continues x y := by
  have hy := hstep.mem
  have hpred := (mem_predecessors_iff h hsub hx hy).2 hstep.mem_successors
  obtain ⟨e, hone⟩ := exists_predecessors_eq hy hstep.begins
  obtain rfl : x = e := by rwa [hone, List.mem_singleton] at hpred
  have hopens : s.opens y = false := by
    rw [← Bool.not_eq_true]
    exact fun hopens => hstep.begins (mem_starts.2 (.inl ⟨hy, hopens⟩))
  have hsplits : s.splits x = false := by
    rw [← Bool.not_eq_true]
    exact fun hsplits => hstep.begins (mem_starts.2 (.inr ⟨x, hx, hsplits, hstep.mem_successors⟩))
  simp only [opens, splits, Bool.or_eq_false_iff, decide_eq_false_iff_not, not_le] at hopens hsplits
  obtain ⟨⟨⟨hconn, hport⟩, hleft⟩, hends⟩ := hsplits
  obtain ⟨hconn', hport'⟩ := outgoing_pos (mem_inBlock.1 hstep.mem_successors).1
  refine ⟨fun n => ?_, fun n => ?_, by omega, by omega, isLeft_eq_false_iff.1 hleft,
    isEntered_eq_false_iff.1 hopens.2, endsChain_eq_false_iff.1 hends⟩
  · rw [← mem_inBlock, ← List.mem_singleton, ← hstep.only]
    rfl
  · rw [← mem_inBlock, ← List.mem_singleton, ← hone]
    rfl

theorem Continues.goesOn (hx : x ∈ s.block.elements) (hc : s.Continues x y) : s.GoesOn x y := by
  have hy : y ∈ s.block.elements := ((hc.successor y).2 rfl).2
  have hsucc : y ∈ s.successors x := mem_inBlock.2 ((hc.successor y).2 rfl)
  have hconn : (s.flow.outgoing x).length < 2 := hc.connection ▸ Nat.one_lt_two
  refine ⟨endsChain_eq_false_iff.2 hc.processor, successors_eq_of_mem hconn hsucc, fun hstart => ?_⟩
  have hone : (s.predecessors y).length = 1 := by
    have hperm : (s.predecessors y).Perm [x] := by
      refine (List.perm_ext_iff_of_nodup (predecessors_nodup s y) (List.nodup_singleton x)).2
        fun n => ?_
      rw [predecessors, mem_inBlock, hc.predecessor, List.mem_singleton]
    exact hperm.length_eq
  have hentered := isEntered_eq_false_iff.2 hc.notEntered
  have hleft := isLeft_eq_false_iff.2 hc.notLeft
  have hends := endsChain_eq_false_iff.2 hc.processor
  rcases mem_starts.1 hstart with ⟨-, hopens⟩ | ⟨e, he, hsplits, hye⟩
  · simp [opens, hone, hentered] at hopens
  · obtain rfl : e = x :=
      (hc.predecessor e).1 (mem_inBlock.1 ((mem_predecessors_iff h hsub he hy).2 hye))
    simp [splits, hc.connection, hc.port, hleft, hends] at hsplits

theorem goesOn_iff_continues (hx : x ∈ s.block.elements) : s.GoesOn x y ↔ s.Continues x y :=
  ⟨fun hstep => hstep.to_continues h hsub hx, fun hc => hc.goesOn h hsub hx⟩

end Continuing

/-! ## Fragments -/

theorem Follows.head?_eq {c : List ElementId} (hf : s.Follows e c) : c.head? = some e := by
  cases hf <;> rfl

/-- What comes next on a walk is what the chain goes on to. -/
theorem Follows.next_iff {c before behind : List ElementId} (hf : s.Follows e c)
    (hc : c = before ++ x :: behind) : behind.head? = some y ↔ s.GoesOn x y := by
  induction hf generalizing before with
  | @stops e hlast =>
    cases before with
    | nil =>
      obtain ⟨rfl, rfl⟩ := List.cons.inj hc
      simp [hlast y]
    | cons b before => simp at hc
  | @goesOn e m c hstep rest ih =>
    cases before with
    | nil =>
      obtain ⟨rfl, rfl⟩ := List.cons.inj hc
      rw [rest.head?_eq, Option.some_inj]
      constructor
      · rintro rfl
        exact hstep
      · exact hstep.unique
    | cons b before => exact ih (List.cons.inj hc).2

/-- A fragment is a chain of factors.  The walk that makes it ends, and one factor follows another
exactly where records have no other way. -/
structure IsChain (s : Setting) (f : Fragment) : Prop where
  ends : s.Follows f.head f.elements
  members : ∀ e ∈ f.elements, e ∈ s.block.elements
  processors : ∀ x ∈ f.factors, x.processor = s.processor x.element
  next : ∀ before x behind, f.factors = before ++ x :: behind → ∀ y,
    (behind.head?.map (·.element) = some y ↔ s.Continues x.element y)

theorem isChain_of_mem_fragments (h : s.flow.Coherent)
    (hsub : ∀ e ∈ s.block.elements, ∃ x ∈ s.flow.elements, x.id = e) {first : FragmentId}
    {f : Fragment} (hf : f ∈ s.fragments first) : s.IsChain f := by
  obtain ⟨e, he, heq⟩ := mem_fragments hf
  have helems : f.elements = s.chainFrom e := by rw [heq, elements_fragment]
  have hfollows : s.Follows f.head f.elements := by
    rw [helems, heq, head_fragment]
    exact follows_chainFrom h hsub he
  have hmembers : ∀ n ∈ f.elements, n ∈ s.block.elements := by
    intro n hn
    rw [helems, (follows_chainFrom h hsub he).mem_iff] at hn
    exact mem_of_goesOn (starts_subset he) hn
  refine ⟨hfollows, hmembers, fun x hx => ?_, fun before x behind hsplit y => ?_⟩
  · rw [heq] at hx
    obtain ⟨n, -, rfl⟩ := List.mem_map.1 hx
    rfl
  · have hsplit' : f.elements = before.map (·.element) ++ x.element :: behind.map (·.element) := by
      rw [Fragment.elements, hsplit, List.map_append, List.map_cons]
    have hx : x.element ∈ f.elements := by
      rw [hsplit']
      exact List.mem_append_right _ List.mem_cons_self
    rw [← List.head?_map, hfollows.next_iff hsplit',
      goesOn_iff_continues h hsub (hmembers _ hx)]

end Setting
end Fragmentation

namespace StageGraph

open Fragmentation FlowGraph

variable {g : FlowGraph} {b : Block}

/-- A block of a plan with the processors that a registry gives its elements. -/
def setting (sg : StageGraph) (processors : ProcessorRegistry) (b : Block) : Setting :=
  { flow := sg.flow, block := b, processor := StageModel.processorOf sg.flow processors }

/-- The fragments of a block, one for each start in ascending order, are the longest chains that
records have one way through.  That the flow has no circles is not assumed: from every start the
walk ends. -/
theorem plan_chains_fragments (h : g.WellFormed) (hb : b ∈ (plan g).1.blocks)
    (processors : ProcessorRegistry) (first : FragmentId) :
    (((plan g).1.setting processors b).fragments first).map (·.head)
        = ((plan g).1.setting processors b).starts ∧
      ∀ f ∈ ((plan g).1.setting processors b).fragments first,
        ((plan g).1.setting processors b).IsChain f :=
  ⟨Setting.heads_fragments first, fun _ hf =>
    Setting.isChain_of_mem_fragments h.coherent (fun _ he => exists_of_mem_elements hb he) hf⟩

/-- An operator that reads its own results, through another one, and two operators that read nothing
but each other. -/
def whirls : FlowGraph :=
  let plain (name : String) : PortDecl := .plain name "Record"
  let work (name kind : String) (inputs : List PortDecl) : ElementDecl :=
    .operator name { name, kind, resources := [] } inputs [plain "out"] .none
  assemble
    [.input "in" "Record", work "a" "update" [plain "in"],
      work "b" "confluent" [plain "left", plain "right"], work "c" "update" [plain "in"],
      work "d" "update" [plain "in"], work "e" "update" [plain "in"]]
    [(0, 1), (2, 3), (5, 6), (7, 4), (9, 10), (11, 8)]

def lineParts : ProcessorRegistry :=
  Catalog.ofList [⟨"confluent", .linePart⟩, ⟨"update", .linePart⟩]

/-- The circle is cut where it is entered.  Nothing begins in the circle that is not entered, so no
fragment takes up its elements. -/
theorem whirls_chained : whirls.WellFormed ∧
    ∃ b ∈ (plan whirls).1.blocks, ∃ b' ∈ (plan whirls).1.blocks,
      b.elements = [1, 2, 3] ∧ b'.elements = [4, 5] ∧
      ((plan whirls).1.setting lineParts b').fragments 2 = [] ∧
      (((plan whirls).1.setting lineParts b).fragments 0).map (·.elements) = [[1], [2, 3]] ∧
      ((plan whirls).1.setting lineParts b).Continues 2 3 ∧
      (¬ ((plan whirls).1.setting lineParts b).Continues 1 2) ∧
      ¬ ((plan whirls).1.setting lineParts b).Continues 3 2 := by
  have hwf : whirls.WellFormed := assemble_wellFormed _ (by simp)
  have hblocks : (blocksOf whirls)[1]? = some ⟨1, .map, [1, 2, 3], [1], []⟩ ∧
      (blocksOf whirls)[2]? = some ⟨2, .map, [4, 5], [], []⟩ := by
    decide +kernel
  have hb := List.mem_of_getElem? hblocks.1
  have hb' := List.mem_of_getElem? hblocks.2
  have hchains := (plan_chains_fragments hwf hb lineParts 0).2
  have hfragments : ((plan whirls).1.setting lineParts ⟨1, .map, [1, 2, 3], [1], []⟩).fragments 0
      = [⟨0, 1, [⟨1, ⟨"update", .linePart⟩⟩], [], [2]⟩,
        ⟨1, 1, [⟨2, ⟨"confluent", .linePart⟩⟩, ⟨3, ⟨"update", .linePart⟩⟩], [], [7]⟩] := by
    cbv
  rw [hfragments] at hchains
  have hfirst := hchains _ List.mem_cons_self
  have hsecond := hchains _ (List.mem_cons_of_mem _ List.mem_cons_self)
  refine ⟨hwf, _, hb, _, hb', rfl, rfl, by cbv, ?_, ?_, fun hc => ?_, fun hc => ?_⟩
  · rw [hfragments]
    rfl
  · exact (hsecond.next [] _ _ rfl 3).1 rfl
  · cases (hfirst.next [] _ _ rfl 2).2 hc
  · cases (hsecond.next [_] _ [] rfl 2).2 hc

end StageGraph
end FlowPlan
