import FlowPlan.Fragment
import FlowPlan.Proofs.Levels
import FlowPlan.Proofs.StageClasses

/-!
The chains of a block hold every element of the block once.

An element that begins no chain has one element of the block in front of it, and that one goes on to
it alone.  So a chain can be followed back from any of its elements in one way, which is why no
chain comes back to itself, and in a graph with levels the way back leads to a start.
-/

namespace FlowPlan

open Relation

theorem mem_without {α : Type} [DecidableEq α] {xs ys : List α} {a : α} :
    a ∈ without xs ys ↔ a ∈ xs ∧ a ∉ ys := by
  simp [without]

namespace Fragmentation
namespace Setting

variable {s : Setting} {level : ElementId → Nat} {e n : ElementId}

theorem mem_inBlock {es : List ElementId} :
    n ∈ s.inBlock es ↔ n ∈ es ∧ n ∈ s.block.elements := by
  rw [inBlock, List.mem_filter, StageGraph.holds_iff]

theorem mem_starts :
    n ∈ s.starts ↔ (n ∈ s.block.elements ∧ s.opens n = true) ∨
      ∃ e ∈ s.block.elements, s.splits e = true ∧ n ∈ s.successors e := by
  rw [starts, mem_ascending, List.mem_append, List.mem_filter, List.mem_flatMap]
  simp only [List.mem_filter, and_assoc]

theorem starts_subset (hn : n ∈ s.starts) : n ∈ s.block.elements := by
  rcases mem_starts.1 hn with hn | ⟨e, -, -, hn⟩
  · exact hn.1
  · exact (mem_inBlock.1 hn).2

/-- The chain that has an element goes on to another. -/
structure GoesOn (s : Setting) (e n : ElementId) : Prop where
  continues : (s.processor e).endsChain = false
  only : s.successors e = [n]
  begins : n ∉ s.starts

theorem GoesOn.mem_successors (h : s.GoesOn e n) : n ∈ s.successors e := by
  rw [h.only]
  exact List.mem_singleton_self n

theorem GoesOn.mem (h : s.GoesOn e n) : n ∈ s.block.elements :=
  (mem_inBlock.1 h.mem_successors).2

theorem mem_of_goesOn (he : e ∈ s.block.elements) (h : ReflTransGen s.GoesOn e n) :
    n ∈ s.block.elements := by
  rcases h.cases_tail with rfl | ⟨m, -, hstep⟩
  · exact he
  · exact hstep.mem

/-- The chain of a start, through what begins no chain itself. -/
def chainFrom (s : Setting) (e : ElementId) : List ElementId :=
  s.chain (without s.block.elements s.starts) e

/-- A chain stops, or it goes on to what is free. -/
theorem chain_induction (s : Setting) {motive : List ElementId → ElementId → Prop}
    (stops : ∀ free e, s.chain free e = [e] →
      (∀ n, (s.processor e).endsChain = false → s.successors e = [n] → n ∉ free) → motive free e)
    (goesOn : ∀ free e n, s.chain free e = e :: s.chain (free.erase n) n →
      (s.processor e).endsChain = false → s.successors e = [n] → n ∈ free →
        motive (free.erase n) n → motive free e)
    (free : List ElementId) (e : ElementId) : motive free e := by
  induction free, e using chain.induct s with
  | case1 free e hends =>
    refine stops free e (by rw [chain, if_pos hends]) fun n hgoes => ?_
    rw [hends] at hgoes
    cases hgoes
  | case2 free e hends n hone hmem ih =>
    refine goesOn free e n ?_ (by simpa using hends) hone hmem ih
    rw [chain, if_neg hends]
    simp only [hone, hmem, dif_pos]
  | case3 free e hends n hone hmem =>
    refine stops free e ?_ fun m _ hone' => ?_
    · rw [chain, if_neg hends]
      simp only [hone, hmem, dite_false]
    · rw [hone, List.singleton_inj] at hone'
      exact hone' ▸ hmem
  | case4 free e hends hmany =>
    refine stops free e ?_ fun m _ hone => absurd hone (hmany m)
    rw [chain, if_neg hends]
    split
    · exact absurd ‹_› (hmany _)
    · rfl

/-! ## Following a chain forth -/

/-- What a walk from an element on takes up: it goes on as long as the chain does, whatever it has
passed, so a walk that comes back to itself would have no end. -/
inductive Follows (s : Setting) : ElementId → List ElementId → Prop
  | stops {e : ElementId} (hlast : ∀ n, ¬ s.GoesOn e n) : Follows s e [e]
  | goesOn {e n : ElementId} {c : List ElementId} (hstep : s.GoesOn e n) (rest : Follows s n c) :
    Follows s e (e :: c)

theorem GoesOn.unique {m : ElementId} (h : s.GoesOn e n) (h' : s.GoesOn e m) : n = m :=
  List.singleton_inj.1 (h.only.symm.trans h'.only)

namespace Follows

variable {c : List ElementId}

theorem mem_iff (h : s.Follows e c) : n ∈ c ↔ ReflTransGen s.GoesOn e n := by
  induction h with
  | @stops e hlast =>
    rw [List.mem_singleton]
    constructor
    · rintro rfl
      exact .refl
    · intro hpath
      rcases hpath.cases_head with heq | ⟨m, hstep, -⟩
      · exact heq.symm
      · exact absurd hstep (hlast m)
  | @goesOn e m c hstep _ ih =>
    rw [List.mem_cons, ih]
    constructor
    · rintro (rfl | hpath)
      · exact .refl
      · exact .head hstep hpath
    · intro hpath
      rcases hpath.cases_head with heq | ⟨m', hstep', hrest⟩
      · exact .inl heq.symm
      · exact .inr (hstep.unique hstep' ▸ hrest)

/-- A walk that ends does not come back to where it began. -/
theorem not_returns (h : s.Follows e c) : ¬ TransGen s.GoesOn e e := by
  induction h with
  | stops hlast =>
    intro hloop
    obtain ⟨n, hstep, -⟩ := TransGen.head'_iff.1 hloop
    exact hlast n hstep
  | goesOn hstep _ ih =>
    intro hloop
    obtain ⟨n, hstep', hback⟩ := TransGen.head'_iff.1 hloop
    obtain rfl := hstep.unique hstep'
    exact ih (.tail' hback hstep)

theorem nodup (h : s.Follows e c) : c.Nodup := by
  induction h with
  | stops => exact List.nodup_singleton _
  | goesOn hstep rest ih =>
    refine List.nodup_cons.2 ⟨fun hmem => ?_, ih⟩
    exact (Follows.goesOn hstep rest).not_returns (.head' hstep (rest.mem_iff.1 hmem))

end Follows

/-- The chain is what a walk takes up, where no element that the walk comes to lies on a circle: all
of them are free then, and stay so until they are taken. -/
theorem follows_chain (free : List ElementId) (e : ElementId) (hfree : ∀ n ∈ free, n ∉ s.starts)
    (hahead : ∀ n, TransGen s.GoesOn e n → n ∈ free)
    (honce : ∀ n, TransGen s.GoesOn e n → ¬ TransGen s.GoesOn n n) :
    s.Follows e (s.chain free e) := by
  induction free, e using chain_induction s with
  | stops free e hchain hstop =>
    rw [hchain]
    exact .stops fun n hstep => hstop n hstep.continues hstep.only (hahead n (.single hstep))
  | goesOn free e n hchain hends hone hmem ih =>
    have hstep : s.GoesOn e n := ⟨hends, hone, hfree n hmem⟩
    rw [hchain]
    refine .goesOn hstep (ih (fun m hm => hfree m (List.mem_of_mem_erase hm)) (fun m hm => ?_)
      fun m hm => honce m (.head hstep hm))
    refine (List.mem_erase_of_ne ?_).2 (hahead m (.head hstep hm))
    rintro rfl
    exact honce m (.single hstep) hm

/-! ## Following a chain back -/

section Covering

variable (h : s.flow.Coherent) (hsub : ∀ e ∈ s.block.elements, ∃ x ∈ s.flow.elements, x.id = e)

include h hsub

theorem mem_predecessors_iff (he : e ∈ s.block.elements) (hn : n ∈ s.block.elements) :
    e ∈ s.predecessors n ↔ n ∈ s.successors e := by
  obtain ⟨x, hx, rfl⟩ := hsub e he
  obtain ⟨y, hy, rfl⟩ := hsub n hn
  rw [predecessors, successors, mem_inBlock, mem_inBlock, h.mem_predecessors hy,
    h.mem_successors hx]
  constructor
  · intro hmem
    obtain ⟨⟨x', hx', hid, hf⟩, -⟩ := hmem
    obtain rfl := h.eq_of_id_eq hx' hx hid
    exact ⟨⟨y, hy, rfl, hf⟩, hn⟩
  · intro hmem
    obtain ⟨⟨y', hy', hid, hf⟩, -⟩ := hmem
    obtain rfl := h.eq_of_id_eq hy' hy hid
    exact ⟨⟨x, hx, rfl, hf⟩, he⟩

theorem lt_of_mem_successors (hlevel : s.flow.IsLevelling level) (he : e ∈ s.block.elements)
    (hn : n ∈ s.successors e) : level e < level n := by
  obtain ⟨x, hx, rfl⟩ := hsub e he
  obtain ⟨y, hy, rfl, hf⟩ := (h.mem_successors hx).1 (mem_inBlock.1 hn).1
  exact hlevel x hx y hy hf

omit h hsub in
/-- What begins no chain has exactly one element of the block in front of it. -/
theorem exists_predecessors_eq (hn : n ∈ s.block.elements) (hbegins : n ∉ s.starts) :
    ∃ e, s.predecessors n = [e] := by
  have hopens : s.opens n = false := by
    rw [← Bool.not_eq_true]
    exact fun hopens => hbegins (mem_starts.2 (.inl ⟨hn, hopens⟩))
  simp only [opens, Bool.or_eq_false_iff, decide_eq_false_iff_not, not_not] at hopens
  exact List.length_eq_one_iff.1 hopens.1

theorem eq_of_goesOn {e' : ElementId} (he : e ∈ s.block.elements) (he' : e' ∈ s.block.elements)
    (hstep : s.GoesOn e n) (hstep' : s.GoesOn e' n) : e = e' := by
  obtain ⟨p, hp⟩ := exists_predecessors_eq hstep.mem hstep.begins
  have heq := (mem_predecessors_iff h hsub he hstep.mem).2 hstep.mem_successors
  have heq' := (mem_predecessors_iff h hsub he' hstep.mem).2 hstep'.mem_successors
  rw [hp, List.mem_singleton] at heq heq'
  exact heq.trans heq'.symm

omit h hsub in
/-- An element that does not fan out has at most one element behind it. -/
theorem successors_eq_of_mem (hout : (s.flow.outgoing e).length < 2) (hn : n ∈ s.successors e) :
    s.successors e = [n] := by
  obtain ⟨hflow, hblock⟩ := mem_inBlock.1 hn
  have hone : s.flow.successors e = [n] := by
    rw [FlowGraph.successors] at hflow ⊢
    rcases hconn : s.flow.outgoing e with _ | ⟨c, _ | ⟨c', cs⟩⟩
    · simp [hconn] at hflow
    · rw [hconn] at hflow
      cases ho : s.flow.ownerId? c.target with
      | none => simp [ho] at hflow
      | some m =>
        obtain rfl : n = m := by simpa [ho] using hflow
        simp only [List.filterMap_cons, ho, List.filterMap_nil]
        rfl
    · simp only [hconn, List.length_cons] at hout
      omega
  have hholds : s.block.holds n = true := StageGraph.holds_iff.2 hblock
  rw [successors, hone, inBlock, List.filter_cons_of_pos hholds, List.filter_nil]

theorem exists_goesOn (hn : n ∈ s.block.elements) (hbegins : n ∉ s.starts) :
    ∃ e ∈ s.block.elements, s.GoesOn e n := by
  obtain ⟨e, hpred⟩ := exists_predecessors_eq hn hbegins
  have hmem : e ∈ s.predecessors n := by rw [hpred]; exact List.mem_singleton_self e
  have he := (mem_inBlock.1 hmem).2
  have hsucc := (mem_predecessors_iff h hsub he hn).1 hmem
  have hsplits : s.splits e = false := by
    rw [← Bool.not_eq_true]
    exact fun hsplits => hbegins (mem_starts.2 (.inr ⟨e, he, hsplits, hsucc⟩))
  simp only [splits, Bool.or_eq_false_iff, decide_eq_false_iff_not, not_le] at hsplits
  exact ⟨e, he, hsplits.2, successors_eq_of_mem hsplits.1.1.1 hsucc, hbegins⟩

theorem exists_start (hlevel : s.flow.IsLevelling level) (hn : n ∈ s.block.elements) :
    ∃ e ∈ s.starts, ReflTransGen s.GoesOn e n := by
  -- Going back lowers the level.
  induction hl : level n using Nat.strong_induction_on generalizing n with
  | _ l ih =>
    subst hl
    by_cases hbegins : n ∈ s.starts
    · exact ⟨n, hbegins, .refl⟩
    · obtain ⟨e, he, hstep⟩ := exists_goesOn h hsub hn hbegins
      have hlt := lt_of_mem_successors h hsub hlevel he hstep.mem_successors
      obtain ⟨start, hstart, hpath⟩ := ih (level e) hlt he rfl
      exact ⟨start, hstart, hpath.tail hstep⟩

theorem start_unique {a b : ElementId} (ha : a ∈ s.starts) (hb : b ∈ s.starts)
    (hpath : ReflTransGen s.GoesOn a n) (hpath' : ReflTransGen s.GoesOn b n) : a = b := by
  induction hpath with
  | refl =>
    rcases hpath'.cases_tail with heq | ⟨m, -, hstep⟩
    · exact heq
    · exact absurd ha hstep.begins
  | @tail m n hpath hstep ih =>
    rcases hpath'.cases_tail with rfl | ⟨m', hpath', hstep'⟩
    · exact absurd hb hstep.begins
    · have hm := mem_of_goesOn (starts_subset ha) hpath
      have hm' := mem_of_goesOn (starts_subset hb) hpath'
      obtain rfl := eq_of_goesOn h hsub hm hm' hstep hstep'
      exact ih hpath'

/-- A walk from a start does not come upon a circle: the first element of the circle that it comes
to would have two elements in front of it. -/
theorem not_returns_of_start {a : ElementId} (ha : a ∈ s.starts)
    (hpath : ReflTransGen s.GoesOn a n) : ¬ TransGen s.GoesOn n n := by
  induction hpath with
  | refl =>
    intro hloop
    obtain ⟨m, -, hstep⟩ := TransGen.tail'_iff.1 hloop
    exact hstep.begins ha
  | @tail m n hpath hstep ih =>
    intro hloop
    obtain ⟨k, hround, hstep'⟩ := TransGen.tail'_iff.1 hloop
    have hm := mem_of_goesOn (starts_subset ha) hpath
    have hk := mem_of_goesOn hstep.mem hround
    obtain rfl := eq_of_goesOn h hsub hm hk hstep hstep'
    exact ih (.head' hstep hround)

/-- From every start the walk ends, also where the block has circles. -/
theorem follows_chainFrom (he : e ∈ s.starts) : s.Follows e (s.chainFrom e) := by
  refine follows_chain _ e (fun n hn => (mem_without.1 hn).2) (fun n hpath => ?_)
    fun n hpath => not_returns_of_start h hsub he hpath.to_reflTransGen
  obtain ⟨m, -, hstep⟩ := TransGen.tail'_iff.1 hpath
  exact mem_without.2 ⟨hstep.mem, hstep.begins⟩

/-- The chains of a block take up each of its elements once. -/
theorem chains_perm (hlevel : s.flow.IsLevelling level) (hn : s.block.elements.Nodup) :
    s.chains.flatten.Perm s.block.elements := by
  have hchain := fun e (he : e ∈ s.starts) => follows_chainFrom h hsub he
  have hchains : s.chains = s.starts.map s.chainFrom := rfl
  refine (List.perm_ext_iff_of_nodup ?_ hn).2 fun n => ?_
  · rw [hchains, List.nodup_flatten]
    refine ⟨fun c hc => ?_, List.pairwise_map.2 ?_⟩
    · obtain ⟨e, he, rfl⟩ := List.mem_map.1 hc
      exact (hchain e he).nodup
    · refine (ascending_nodup _).imp_of_mem fun {a b} ha hb hne n hna hnb => hne ?_
      exact start_unique h hsub ha hb ((hchain a ha).mem_iff.1 hna) ((hchain b hb).mem_iff.1 hnb)
  · rw [hchains, List.mem_flatten]
    constructor
    · intro hmem
      obtain ⟨c, hc, hnc⟩ := hmem
      obtain ⟨e, he, rfl⟩ := List.mem_map.1 hc
      exact mem_of_goesOn (starts_subset he) ((hchain e he).mem_iff.1 hnc)
    · intro hmem
      obtain ⟨e, he, hpath⟩ := exists_start h hsub hlevel hmem
      exact ⟨_, List.mem_map_of_mem he, (hchain e he).mem_iff.2 hpath⟩

end Covering

/-! ## The fragments of a block -/

theorem elements_fragment (id : FragmentId) (chain : List ElementId) :
    (s.fragment id chain).elements = chain := by
  rw [Fragment.elements, fragment, List.map_map]
  exact List.map_id chain

theorem elements_fragments (first : FragmentId) :
    (s.fragments first).flatMap (·.elements) = s.chains.flatten := by
  rw [fragments, List.flatMap_map]
  simp only [elements_fragment]
  rw [List.flatMap_def, List.zipIdx_map_fst]

end Setting
end Fragmentation
end FlowPlan
