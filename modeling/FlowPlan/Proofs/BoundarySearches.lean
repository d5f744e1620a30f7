import FlowPlan.Proofs.Levels
import FlowPlan.Proofs.Regions

/-!
The boundaries behind a port, and the shuffles that diverge because of them.

One search walks on from a port until it meets boundaries.  Another one walks on from a shuffle, and
judges whether what follows the shuffle can stay inside one reducer.  The first finds exactly the
boundaries that a path arrives at without crossing one (`mem_succeedingBoundaries`).  The second
judges by the same paths, so the verdict can be told from what the first finds
(`diverges_iff_boundaries`).  The second does not look at the shuffle again when it comes back to
it, so on cycles the shuffle itself has to be left out of what the first finds.

The main statement is `searches_find_boundaries`.
-/

namespace FlowPlan
namespace FlowGraph

open Relation

variable {g : FlowGraph} {via : Element → Prop} {e x y : Element} {p : PortId}

/-! ## Behind a port -/

/-- The search behind a port walks on from elements that are no boundaries. -/
def beforeBoundaries (g : FlowGraph) (i : ElementId) : List ElementId :=
  if g.isBoundary i then [] else g.successors i

theorem succeedingBoundaries_eq (g : FlowGraph) (p : PortId) : g.succeedingBoundaries p =
    (Search.reach g.beforeBoundaries g.elementIds (g.oppositeOwners p)).filter g.isBoundary := rfl

theorem mem_beforeBoundaries (h : g.Coherent) (hx : x ∈ g.elements) {i : ElementId} :
    i ∈ g.beforeBoundaries x.id ↔ x.isBoundary = false ∧ i ∈ g.successors x.id := by
  rw [beforeBoundaries, h.isBoundary_eq hx]
  cases x.isBoundary <;> simp

/-- The search comes to the elements that a path arrives at without crossing a boundary. -/
theorem mem_reach_beforeBoundaries (h : g.Coherent) (hp : g.isOutputPort p = true)
    (hy : y ∈ g.elements) :
    y.id ∈ Search.reach g.beforeBoundaries g.elementIds (g.oppositeOwners p) ↔
      ∃ d ∈ y.inputIds, g.Carries (·.isBoundary = false) p d := by
  rw [Search.mem_reach]
  constructor
  · intro hmem
    obtain ⟨i, hi, -, hpath⟩ := hmem
    generalize hid : y.id = j at hpath
    induction hpath generalizing y with
    | refl =>
      obtain ⟨y', hy', rfl, d, hd, hc⟩ := (h.mem_oppositeOwners hp).1 hi
      obtain rfl := h.eq_of_id_eq hy hy' hid
      exact ⟨d, hd, .direct hc⟩
    | @tail a _ _ hstep ih =>
      subst hid
      have hsucc : y.id ∈ g.successors a := by
        have hmem := hstep.1
        rw [beforeBoundaries] at hmem
        split at hmem
        · cases hmem
        · exact hmem
      obtain ⟨z, hz, rfl⟩ := exists_of_mem_successors hsucc
      have hb := ((mem_beforeBoundaries h hz).1 hstep.1).1
      obtain ⟨y', hy', hid, c, hc, hs, ht⟩ := (h.mem_successors hz).1 hsucc
      obtain rfl := h.eq_of_id_eq hy' hy hid
      obtain ⟨d, hd, hcarries⟩ := ih hz rfl
      exact ⟨c.target, ht, hcarries.trans hz hb hd hs (.direct hc)⟩
  · intro hmem
    obtain ⟨d, hd, hcarries⟩ := hmem
    induction hcarries with
    | direct hc =>
      have hi := (h.mem_oppositeOwners hp).2 ⟨y, hy, rfl, _, hd, hc⟩
      exact ⟨y.id, hi, mem_elementIds.2 ⟨y, hy, rfl⟩, .refl⟩
    | through first hz hb ha hout _ ih =>
      have hout' := isOutputPort_iff.2 ⟨_, hz, hout⟩
      obtain ⟨i, hi, hnode, hpath⟩ := ih hout' hd
      obtain ⟨z', hz', rfl, a', ha', hc'⟩ := (h.mem_oppositeOwners hout').1 hi
      have hsucc := (h.mem_successors hz).2 ⟨z', hz', rfl, _, hc', hout, ha'⟩
      exact ⟨_, (h.mem_oppositeOwners hp).2 ⟨_, hz, rfl, _, ha, first⟩,
        mem_elementIds.2 ⟨_, hz, rfl⟩,
        .head ⟨(mem_beforeBoundaries h hz).2 ⟨hb, hsucc⟩, hnode⟩ hpath⟩

theorem mem_succeedingBoundaries (h : g.Coherent) (hp : g.isOutputPort p = true) {i : ElementId} :
    i ∈ g.succeedingBoundaries p ↔ ∃ b ∈ g.elements, b.id = i ∧ b.isBoundary = true ∧
      ∃ d ∈ b.inputIds, g.Carries (·.isBoundary = false) p d := by
  rw [succeedingBoundaries_eq, List.mem_filter]
  constructor
  · intro hmem
    obtain ⟨hreach, hb⟩ := hmem
    obtain ⟨b, hb', hid⟩ := (Option.any_eq_true _ _).1 hb
    obtain ⟨hbg, rfl⟩ := mem_of_element?_eq_some hb'
    exact ⟨b, hbg, rfl, hid, (mem_reach_beforeBoundaries h hp hbg).1 hreach⟩
  · intro hmem
    obtain ⟨b, hb, rfl, hbound, hcarries⟩ := hmem
    exact ⟨(mem_reach_beforeBoundaries h hp hb).2 hcarries, by rwa [h.isBoundary_eq hb]⟩

theorem succeedingBoundaries_nodup (g : FlowGraph) (p : PortId) :
    (g.succeedingBoundaries p).Nodup := (Search.reach_nodup _ _ _).filter _

theorem takeUp_succeedingBoundaries (h : g.Coherent) (hp : g.isOutputPort p = true) :
    Turn.EndsIn (Search.takeUp g.successors g.isBoundary) ⟨g.oppositeOwners p, [], []⟩
      (g.succeedingBoundaries p) := by
  refine Search.takeUp_endsIn (successors_subset h) fun i hi => ?_
  obtain ⟨y, hy, rfl, -⟩ := (h.mem_oppositeOwners hp).1 hi
  exact mem_elementIds.2 ⟨y, hy, rfl⟩

/-! ## Behind a shuffle -/

/-- An element that is no boundary, reached from the other one without crossing any. -/
def LiesBehind (g : FlowGraph) (e x : Element) : Prop :=
  x.isBoundary = false ∧ g.LeadsTo (·.isBoundary = false) e x

/-- A shuffle is among the boundaries behind the ports of an element if some element of the region
feeds it. -/
theorem exists_succeeding_shuffle_iff (h : g.Coherent) (he : e ∈ g.elements) :
    (∃ p ∈ e.outputIds, ∃ i ∈ g.succeedingBoundaries p, i ≠ e.id ∧ g.isShuffleBoundary i = true) ↔
      ∃ x ∈ g.elements, g.InRegion e x ∧
        ∃ y ∈ g.elements, y.isShuffleBoundary = true ∧ y ≠ e ∧ g.Feeds x y := by
  have hport : ∀ p ∈ e.outputIds, g.isOutputPort p = true := fun p hp =>
    isOutputPort_iff.2 ⟨e, he, hp⟩
  constructor
  · intro hmem
    obtain ⟨p, hp, i, hi, hne, hs⟩ := hmem
    obtain ⟨y, hy, rfl, -, d, hd, hcarries⟩ := (mem_succeedingBoundaries h (hport p hp)).1 hi
    rw [h.isShuffleBoundary_eq hy] at hs
    have hye : y ≠ e := fun heq => hne (heq ▸ rfl)
    have hlead : g.LeadsTo (·.isBoundary = false) e y := ⟨p, hp, d, hd, hcarries⟩
    rcases hlead.cases_last with hf | ⟨z, hz, hzb, hez, hf⟩
    · exact ⟨e, he, .inl rfl, y, hy, hs, hye, hf⟩
    · exact ⟨z, hz, .inr ⟨hzb, hez⟩, y, hy, hs, hye, hf⟩
  · intro hmem
    obtain ⟨x, hx, hin, y, hy, hs, hye, hf⟩ := hmem
    have hlead : g.LeadsTo (·.isBoundary = false) e y := by
      rcases hin with rfl | ⟨hxb, hex⟩
      · exact hf.leadsTo
      · exact hex.tail hx hxb hf
    obtain ⟨p, hp, d, hd, hcarries⟩ := hlead
    have hmem := (mem_succeedingBoundaries h (hport p hp)).2
      ⟨y, hy, rfl, isBoundary_of_isShuffleBoundary hs, d, hd, hcarries⟩
    exact ⟨p, hp, y.id, hmem, fun hid => hye (h.eq_of_id_eq hy he hid),
      by rwa [h.isShuffleBoundary_eq hy]⟩

/-- On any graph, an element diverges if another shuffle is among the boundaries behind its ports,
or if something else feeds what lies behind it. -/
theorem diverges_iff_boundaries (h : g.Coherent) (he : e ∈ g.elements) :
    g.diverges e.id = true ↔
      (∃ p ∈ e.outputIds, ∃ i ∈ g.succeedingBoundaries p,
        i ≠ e.id ∧ g.isShuffleBoundary i = true) ∨
      ∃ x ∈ g.elements, x ≠ e ∧ g.LiesBehind e x ∧
        ∃ q ∈ g.elements, g.Feeds q x ∧ q ≠ e ∧ ¬ g.LiesBehind e q := by
  rw [exists_succeeding_shuffle_iff h he, diverges_iff h he]
  constructor
  · intro hmem
    obtain ⟨x, hx, hin, hshuffle | ⟨hne, q, hq, hf, hout⟩⟩ := hmem
    · exact .inl ⟨x, hx, hin, hshuffle⟩
    · exact .inr ⟨x, hx, hne, hin.resolve_left hne, q, hq, hf, fun hqe => hout (.inl hqe),
        fun hbehind => hout (.inr hbehind)⟩
  · intro hmem
    obtain ⟨x, hx, hin, hshuffle⟩ | ⟨x, hx, hne, hbehind, q, hq, hf, hqe, hout⟩ := hmem
    · exact ⟨x, hx, hin, .inl hshuffle⟩
    · exact ⟨x, hx, .inr hbehind, .inr ⟨hne, q, hq, hf, fun hin => hin.elim hqe hout⟩⟩

/-! ## Without cycles -/

theorem LeadsTo.transGen_successors (h : g.Coherent) (hx : x ∈ g.elements) (hy : y ∈ g.elements)
    (hlead : g.LeadsTo via x y) : TransGen (fun i j => j ∈ g.successors i) x.id y.id := by
  obtain ⟨u, hu, d, hd, hcarries⟩ := hlead
  induction hcarries generalizing x with
  | direct hc => exact .single ((h.mem_successors hx).2 ⟨y, hy, rfl, _, hc, hu, hd⟩)
  | through first hz _ ha hb _ ih =>
    exact .head ((h.mem_successors hx).2 ⟨_, hz, rfl, _, first, hu, ha⟩) (ih hz hb hd)

/-- The search behind a port ends on every graph, and returns each boundary once that a path arrives
at without crossing one.  On a graph without cycles an element diverges exactly if a shuffle is
among the boundaries behind its ports, or if something feeds what lies behind it that neither is the
element nor lies behind it. -/
theorem searches_find_boundaries (h : g.WellFormed) :
    (∀ p, g.isOutputPort p = true →
      Turn.EndsIn (Search.takeUp g.successors g.isBoundary) ⟨g.oppositeOwners p, [], []⟩
        (g.succeedingBoundaries p) ∧
      (g.succeedingBoundaries p).Nodup ∧
      ∀ i, i ∈ g.succeedingBoundaries p ↔ ∃ b ∈ g.elements, b.id = i ∧ b.isBoundary = true ∧
        ∃ d ∈ b.inputIds, g.Carries (·.isBoundary = false) p d) ∧
    ((∀ i, ¬ TransGen (fun i j => j ∈ g.successors i) i i) → ∀ e ∈ g.elements,
      (g.diverges e.id = true ↔
        (∃ p ∈ e.outputIds, ∃ i ∈ g.succeedingBoundaries p, g.isShuffleBoundary i = true) ∨
        ∃ x ∈ g.elements, g.LiesBehind e x ∧
          ∃ q ∈ g.elements, g.Feeds q x ∧ q ≠ e ∧ ¬ g.LiesBehind e q)) := by
  have hg := h.coherent
  refine ⟨fun p hp => ⟨takeUp_succeedingBoundaries hg hp, succeedingBoundaries_nodup g p,
    fun i => mem_succeedingBoundaries hg hp⟩, fun hacyclic e he => ?_⟩
  have hnever : ∀ x ∈ g.elements, g.LeadsTo (·.isBoundary = false) e x → x ≠ e := by
    intro x hx hlead heq
    subst heq
    exact hacyclic _ (hlead.transGen_successors hg hx hx)
  rw [diverges_iff_boundaries hg he]
  refine or_congr (exists_congr fun p => and_congr_right fun hp => exists_congr fun i =>
    and_congr_right fun hi => and_iff_right ?_) (exists_congr fun x => and_congr_right fun hx =>
      ⟨And.right, fun hmem => ⟨hnever x hx hmem.1.2, hmem⟩⟩)
  obtain ⟨b, hb, rfl, -, d, hd, hcarries⟩ :=
    (mem_succeedingBoundaries hg (isOutputPort_iff.2 ⟨e, he, hp⟩)).1 hi
  exact fun hid => hnever b hb ⟨p, hp, d, hd, hcarries⟩ (hg.eq_of_id_eq hb he hid)

/-- Two ways behind a shuffle that meet at another one, and one of them at an operator that reads
something else as well. -/
def crossing : FlowGraph :=
  let plain (name : String) : PortDecl := .plain name "Record"
  let key (name : String) : PortDecl := { plain name with key := some ⟨["key"], []⟩ }
  let work (name kind : String) (inputs : List PortDecl) (boundary : Boundary) : ElementDecl :=
    .operator name { name, kind, resources := [] } inputs [plain "out"] boundary
  assemble
    [.input "in" "Record", work "sum" "fold" [key "in"] .shuffle,
      work "left" "update" [plain "in"] .none, work "right" "update" [plain "in"] .none,
      work "group" "cogroup" [key "left", key "right"] .shuffle,
      work "merge" "confluent" [plain "left", plain "right"] .none,
      .output "grouped" "Record", .output "merged" "Record"]
    [(0, 1), (2, 3), (2, 5), (4, 7), (6, 8), (6, 10), (0, 11), (9, 13), (12, 14)]

theorem crossing_searched : crossing.WellFormed ∧
    (∀ i, ¬ TransGen (fun i j => j ∈ crossing.successors i) i i) ∧
    crossing.isOutputPort 2 = true ∧
      Turn.EndsIn (Search.takeUp crossing.successors crossing.isBoundary) ⟨[2, 3], [], []⟩ [4, 7] ∧
    ∃ e ∈ crossing.elements, e.id = 1 ∧ (4 ∈ crossing.succeedingBoundaries 2 ∧
      crossing.isShuffleBoundary 4 = true) ∧ crossing.diverges e.id = true := by
  have hwf : crossing.WellFormed := assemble_wellFormed _ (by simp)
  have hcycles : crossing.cycles = [] := by cbv
  have hacyclic := (cycles_eq_nil_iff hwf.coherent).1 hcycles
  have hport : crossing.isOutputPort 2 = true := by cbv
  have hstart : crossing.oppositeOwners 2 = [2, 3] := by cbv
  have hfound : crossing.succeedingBoundaries 2 = [4, 7] := by cbv
  have hshuffle : crossing.isShuffleBoundary 4 = true := by cbv
  obtain ⟨hsearch, hdiverges⟩ := searches_find_boundaries hwf
  obtain ⟨e, he, hp⟩ := isOutputPort_iff.1 hport
  have hid : e.id = 1 :=
    Option.some.inj ((hwf.coherent.ownerId?_of_output he hp).symm.trans (by cbv))
  have hmem : 4 ∈ crossing.succeedingBoundaries 2 := hfound ▸ List.mem_cons_self
  exact ⟨hwf, hacyclic, hport, hstart ▸ hfound ▸ (hsearch 2 hport).1, e, he, hid, ⟨hmem, hshuffle⟩,
    (hdiverges hacyclic e he).2 (.inl ⟨2, hp, 4, hmem, hshuffle⟩)⟩

/-- A shuffle that reads its own results. -/
def selfFed : FlowGraph :=
  let key (name : String) : PortDecl :=
    { PortDecl.plain name "Record" with key := some ⟨["key"], []⟩ }
  assemble
    [.input "in" "Record", .operator "sum" { name := "sum", kind := "fold", resources := [] }
      [key "left", key "right"] [.plain "out" "Record"] .shuffle]
    [(0, 1), (3, 2)]

/-- It is among the boundaries behind its port, and yet it does not diverge. -/
example : selfFed.succeedingBoundaries 3 = [1] ∧ selfFed.diverges 1 = false := by cbv

end FlowGraph
end FlowPlan
