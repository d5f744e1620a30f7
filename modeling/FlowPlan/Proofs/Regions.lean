import FlowPlan.Proofs.MapSides
import FlowPlan.Proofs.Materialization

/-!
What follows a shuffle up to the next boundary.

The reduce side, which the plan is cut along, and the region of a shuffle, by which checkpoints are
inserted, come from two searches of the same kind.  Both are described here by paths: an element is
behind a shuffle when a path of elements that are no boundaries leads from the shuffle to it.

The reduce side is closed when whatever feeds an element behind a shuffle is on the reduce side
itself.  No map block then enters a reduce block beside a shuffle, as `ne_entersBesideShuffle` says.
-/

namespace FlowPlan
namespace FlowGraph

open Relation

variable {g : FlowGraph} {via : Element → Prop} {x y z e : Element}

/-! ## Paths from element to element -/

/-- Records of one element arrive at the other with only elements of a kind in between. -/
def LeadsTo (g : FlowGraph) (via : Element → Prop) (x y : Element) : Prop :=
  ∃ u ∈ x.outputIds, ∃ d ∈ y.inputIds, g.Carries via u d

theorem Feeds.leadsTo (h : g.Feeds x y) : g.LeadsTo via x y := by
  obtain ⟨c, hc, hs, ht⟩ := h
  exact ⟨c.source, hs, c.target, ht, .direct hc⟩

theorem LeadsTo.mono {out : Element → Prop} (hvia : ∀ z, via z → out z) (h : g.LeadsTo via x y) :
    g.LeadsTo out x y := by
  obtain ⟨u, hu, d, hd, hp⟩ := h
  exact ⟨u, hu, d, hd, hp.mono hvia⟩

theorem LeadsTo.trans (h : g.LeadsTo via x y) (hy : y ∈ g.elements) (hv : via y)
    (hrest : g.LeadsTo via y z) : g.LeadsTo via x z := by
  obtain ⟨u, hu, d, hd, hp⟩ := h
  obtain ⟨u', hu', d', hd', hp'⟩ := hrest
  exact ⟨u, hu, d', hd', hp.trans hy hv hd hu' hp'⟩

theorem LeadsTo.tail (h : g.LeadsTo via x y) (hy : y ∈ g.elements) (hv : via y) (hf : g.Feeds y z) :
    g.LeadsTo via x z := h.trans hy hv hf.leadsTo

/-- The last step of a path. -/
theorem Carries.cases_last {u d : PortId} (h : g.Carries via u d) :
    ⟨u, d⟩ ∈ g.connections ∨ ∃ z ∈ g.elements, via z ∧ ∃ a ∈ z.inputIds, ∃ b ∈ z.outputIds,
      g.Carries via u a ∧ ⟨b, d⟩ ∈ g.connections := by
  induction h with
  | direct hc => exact .inl hc
  | through first he hv ha hb _ ih =>
    rcases ih with hc | ⟨z, hz, hvz, a', ha', b', hb', hp, hc⟩
    · exact .inr ⟨_, he, hv, _, ha, _, hb, .direct first, hc⟩
    · exact .inr ⟨z, hz, hvz, a', ha', b', hb', .through first he hv ha hb hp, hc⟩

/-- What a path arrives at is fed by its beginning, or by an element that it has passed. -/
theorem LeadsTo.cases_last (h : g.LeadsTo via x y) :
    g.Feeds x y ∨ ∃ z ∈ g.elements, via z ∧ g.LeadsTo via x z ∧ g.Feeds z y := by
  obtain ⟨u, hu, d, hd, hp⟩ := h
  rcases hp.cases_last with hc | ⟨z, hz, hv, a, ha, b, hb, hp, hc⟩
  · exact .inl ⟨_, hc, hu, hd⟩
  · exact .inr ⟨z, hz, hv, ⟨u, hu, a, ha, hp⟩, _, hc, hb, hd⟩

/-- The first step of a path. -/
theorem LeadsTo.cases_first (h : g.LeadsTo via x y) :
    g.Feeds x y ∨ ∃ z ∈ g.elements, via z ∧ g.Feeds x z ∧ g.LeadsTo via z y := by
  obtain ⟨u, hu, d, hd, hp⟩ := h
  cases hp with
  | direct hc => exact .inl ⟨_, hc, hu, hd⟩
  | through first hz hv ha hb hrest =>
    exact .inr ⟨_, hz, hv, ⟨_, first, hu, ha⟩, _, hb, d, hd, hrest⟩

/-! ## Searches along successors -/

theorem mem_reach_successors (h : g.Coherent) {next : ElementId → Bool}
    (hnext : ∀ y ∈ g.elements, next y.id = true ↔ via y) {start : List ElementId}
    (hy : y ∈ g.elements) :
    y.id ∈ Search.reach (fun e => (g.successors e).filter next) g.elementIds start ↔
      ∃ x ∈ g.elements, x.id ∈ start ∧ (y = x ∨ via y ∧ g.LeadsTo via x y) := by
  rw [Search.mem_reach]
  constructor
  · intro hmem
    obtain ⟨i, hi, hnode, hpath⟩ := hmem
    obtain ⟨x, hx, rfl⟩ := mem_elementIds.1 hnode
    refine ⟨x, hx, hi, ?_⟩
    generalize hid : y.id = j at hpath
    induction hpath generalizing y with
    | refl => exact .inl (h.eq_of_id_eq hy hx hid)
    | @tail b _ hpath hstep ih =>
      subst hid
      have hmid : ∃ z ∈ g.elements, z.id = b := by
        rcases hpath.cases_tail with heq | ⟨_, -, hstep'⟩
        · exact ⟨x, hx, heq.symm⟩
        · exact mem_elementIds.1 hstep'.2
      obtain ⟨z, hz, hzid⟩ := hmid
      obtain ⟨hsucc, hvy⟩ := List.mem_filter.1 hstep.1
      rw [← hzid] at hsucc
      obtain ⟨y', hy', hid, hf⟩ := (h.mem_successors hz).1 hsucc
      obtain rfl := h.eq_of_id_eq hy' hy hid
      refine .inr ⟨(hnext y' hy').1 hvy, ?_⟩
      rcases ih hz hzid with rfl | ⟨hvz, hlead⟩
      · exact hf.leadsTo
      · exact hlead.tail hz hvz hf
  · intro hmem
    obtain ⟨x, hx, hi, hor⟩ := hmem
    refine ⟨x.id, hi, mem_elementIds.2 ⟨x, hx, rfl⟩, ?_⟩
    rcases hor with rfl | ⟨hvy, u, hu, d, hd, hp⟩
    · exact .refl
    · have step : ∀ {a b : Element} {c : Connection}, a ∈ g.elements → b ∈ g.elements → via b →
          c ∈ g.connections → c.source ∈ a.outputIds → c.target ∈ b.inputIds →
            Search.Step (fun e => (g.successors e).filter next) g.elementIds a.id b.id := by
        intro a b c ha hb hvb hc hs ht
        refine ⟨List.mem_filter.2 ⟨?_, (hnext b hb).2 hvb⟩, mem_elementIds.2 ⟨b, hb, rfl⟩⟩
        exact (h.mem_successors ha).2 ⟨b, hb, rfl, c, hc, hs, ht⟩
      clear hi
      induction hp generalizing x with
      | direct hc => exact .single (step hx hy hvy hc hu hd)
      | through first he hv ha hb _ ih =>
        exact .head (step hx he hv first hu ha) (ih _ he hb hd)

/-! ## The reduce side -/

/-- An element reached from a shuffle without crossing a boundary. -/
def IsBehind (g : FlowGraph) (y : Element) : Prop :=
  y.isBoundary = false ∧
    ∃ x ∈ g.elements, x.isShuffleBoundary = true ∧ g.LeadsTo (·.isBoundary = false) x y

/-- Whatever feeds an element behind a shuffle is a shuffle or behind one itself. -/
def ReduceClosed (g : FlowGraph) : Prop :=
  ∀ y ∈ g.elements, g.IsBehind y → ∀ x ∈ g.elements, g.Feeds x y →
    x.isShuffleBoundary = true ∨ g.IsBehind x

theorem mem_reduceSide_iff (h : g.Coherent) (hy : y ∈ g.elements) :
    y.id ∈ g.reduceSide ↔ y.isShuffleBoundary = true ∨ g.IsBehind y := by
  have hnext : ∀ z ∈ g.elements, (!g.isBoundary z.id) = true ↔ z.isBoundary = false := by
    intro z hz
    rw [h.isBoundary_eq hz, Bool.not_eq_true']
  have hstart : ∀ x ∈ g.elements,
      x.id ∈ g.idsWhere (·.isShuffleBoundary) ↔ x.isShuffleBoundary = true := by
    intro x hx
    rw [mem_idsWhere]
    constructor
    · intro hmem
      obtain ⟨x', hx', hs, hid⟩ := hmem
      rwa [← h.eq_of_id_eq hx' hx hid]
    · exact fun hs => ⟨x, hx, hs, rfl⟩
  show y.id ∈ Search.reach (fun e => (g.successors e).filter fun s => !g.isBoundary s) _ _ ↔ _
  rw [mem_reach_successors h hnext hy]
  constructor
  · intro hmem
    obtain ⟨x, hx, hi, rfl | ⟨hv, hlead⟩⟩ := hmem
    · exact .inl ((hstart y hx).1 hi)
    · exact .inr ⟨hv, x, hx, (hstart x hx).1 hi, hlead⟩
  · intro hmem
    rcases hmem with hs | ⟨hv, x, hx, hs, hlead⟩
    · exact ⟨y, hy, (hstart y hy).2 hs, .inl rfl⟩
    · exact ⟨x, hx, (hstart x hx).2 hs, .inr ⟨hv, hlead⟩⟩

/-- Where the reduce side is closed, no map block enters a reduce block beside a shuffle. -/
theorem ne_entersBesideShuffle (h : g.Coherent) (hclosed : g.ReduceClosed) {defect : Defect}
    (hd : defect ∈ (StageGraph.plan g).2) (target : ElementRef) (label : String)
    (block : BlockId) : defect ≠ .entersBesideShuffle target label block := by
  rintro rfl
  obtain ⟨l, hl, hd⟩ := StageGraph.exists_link_of_mem_defects hd rfl
  obtain ⟨hshuffle, hdirect, hbeside⟩ := StageGraph.breaks_of_mem_defects hd
  rw [StageGraph.Link.isShuffle, Bool.and_eq_true] at hshuffle
  have hsource := StageGraph.mem_innerBlocks_of_isStaged (StageGraph.source_mem_blocksOf hl)
    (by rw [Block.isStaged, hshuffle.1, Bool.true_or])
  have htarget := StageGraph.mem_innerBlocks_of_isStaged (StageGraph.target_mem_blocksOf hl)
    (by rw [Block.isStaged, hshuffle.2, Bool.or_true])
  obtain ⟨⟨x, hx, hxb, hs⟩, y, hy, hyb, ht⟩ := StageGraph.exists_ends_of_mem_linksOf h hl
  have hf : g.Feeds x y := ⟨l.connection, StageGraph.connection_of_direct h hl hdirect, hs, ht⟩
  have hyr := (StageGraph.mem_reduceSide_iff_isReduce htarget hyb).2 hshuffle.2
  rw [h.owner?_eq_some hy (Element.mem_portIds.2 (.inl ht)), Option.any_some] at hbeside
  have hbehind : g.IsBehind y := by
    refine ((mem_reduceSide_iff h hy).1 hyr).resolve_left ?_
    rw [hbeside]
    exact Bool.false_ne_true
  have hxr := (mem_reduceSide_iff h hx).2 (hclosed y hy hbehind x hx hf)
  have hmap := hshuffle.1
  rw [StageGraph.isMap_eq_not_isReduce hsource,
    (StageGraph.mem_reduceSide_iff_isReduce hsource hxb).1 hxr] at hmap
  cases hmap

/-! ## The region of a shuffle -/

/-- The shuffle, or an element reached from it without crossing a boundary. -/
def InRegion (g : FlowGraph) (e x : Element) : Prop :=
  x = e ∨ (x.isBoundary = false ∧ g.LeadsTo (·.isBoundary = false) e x)

theorem isBoundary_of_isShuffleBoundary (hs : e.isShuffleBoundary = true) :
    e.isBoundary = true := by
  rw [Element.isBoundary, hs, Bool.or_true]

theorem isShuffleBoundary_eq_false_of_isBoundary_eq_false (hx : x.isBoundary = false) :
    x.isShuffleBoundary = false := by
  rw [← Bool.not_eq_true]
  intro hs
  rw [isBoundary_of_isShuffleBoundary hs] at hx
  cases hx

theorem ne_of_isBoundary_eq_false (hx : x.isBoundary = false) (hs : e.isShuffleBoundary = true) :
    x ≠ e := by
  intro heq
  rw [heq, isBoundary_of_isShuffleBoundary hs] at hx
  cases hx

/-- A path that comes back to where it begins may as well begin there. -/
theorem LeadsTo.without_start (h : g.LeadsTo via x y) :
    g.LeadsTo (fun z => via z ∧ z ≠ x) x y := by
  obtain ⟨u, hu, d, hd, hp⟩ := h
  rcases hp.last_kept (fun z => via z ∧ z ≠ x) with hp | ⟨z, -, hv, hout, w, hw, hp⟩
  · exact ⟨u, hu, d, hd, hp⟩
  · obtain rfl : z = x := by_contra fun hne => hout ⟨hv, hne⟩
    exact ⟨w, hw, d, hd, hp⟩

theorem mem_shuffleRegion (h : g.Coherent) (he : e ∈ g.elements) (hx : x ∈ g.elements) :
    x.id ∈ g.shuffleRegion e.id ↔ g.InRegion e x := by
  have hnext : ∀ z ∈ g.elements,
      (decide (z.id ≠ e.id) && !g.isBoundary z.id) = true ↔ z.isBoundary = false ∧ z ≠ e := by
    intro z hz
    rw [h.isBoundary_eq hz, Bool.and_eq_true, decide_eq_true_eq, Bool.not_eq_true', and_comm]
    exact and_congr_right fun _ => not_congr ⟨h.eq_of_id_eq hz he, congrArg _⟩
  show x.id ∈ Search.reach
    (fun i => (g.successors i).filter fun s => decide (s ≠ e.id) && !g.isBoundary s) _ _ ↔ _
  rw [mem_reach_successors h hnext hx]
  constructor
  · intro hmem
    obtain ⟨z, hz, hid, hor⟩ := hmem
    obtain rfl := h.eq_of_id_eq hz he (List.mem_singleton.1 hid)
    exact hor.imp_right fun ⟨hv, hlead⟩ => ⟨hv.1, hlead.mono fun _ hz => hz.1⟩
  · intro hmem
    refine ⟨e, he, List.mem_singleton_self _, ?_⟩
    by_cases hxe : x = e
    · exact .inl hxe
    · obtain ⟨hb, hlead⟩ := hmem.resolve_left hxe
      exact .inr ⟨⟨hb, hxe⟩, hlead.without_start⟩

theorem mem_elementIds_of_mem_region {i j : ElementId} (hj : j ∈ g.shuffleRegion i) :
    j ∈ g.elementIds := by
  obtain ⟨x, -, hnode, hpath⟩ := Search.mem_reach.1 hj
  rcases hpath.cases_tail with rfl | ⟨_, -, hstep⟩
  · exact hnode
  · exact hstep.2

/-- A shuffle diverges if its region leads into another shuffle, or merges data that did not come
through the shuffle. -/
theorem diverges_iff (h : g.Coherent) (he : e ∈ g.elements) :
    g.diverges e.id = true ↔ ∃ x ∈ g.elements, g.InRegion e x ∧
      ((∃ y ∈ g.elements, y.isShuffleBoundary = true ∧ y ≠ e ∧ g.Feeds x y) ∨
        (x ≠ e ∧ ∃ p ∈ g.elements, g.Feeds p x ∧ ¬ g.InRegion e p)) := by
  have hregion : ∀ {x}, x ∈ g.elements → (x.id ∈ g.shuffleRegion e.id ↔ g.InRegion e x) :=
    fun hx => mem_shuffleRegion h he hx
  rw [diverges, Bool.or_eq_true, reachesShuffle, mergesOthers, List.any_eq_true, List.any_eq_true]
  simp only [List.any_eq_true, Bool.and_eq_true, decide_eq_true_eq]
  constructor
  · intro hmem
    rcases hmem with ⟨i, hi, j, hj, hne, hjs⟩ | ⟨i, hi, hne, j, hj, hout⟩
    · obtain ⟨x, hx, rfl⟩ := mem_elementIds.1 (mem_elementIds_of_mem_region hi)
      obtain ⟨y, hy, rfl, hf⟩ := (h.mem_successors hx).1 hj
      refine ⟨x, hx, (hregion hx).1 hi, .inl ⟨y, hy, ?_, fun heq => hne (heq ▸ rfl), hf⟩⟩
      rwa [h.isShuffleBoundary_eq hy] at hjs
    · obtain ⟨x, hx, rfl⟩ := mem_elementIds.1 (mem_elementIds_of_mem_region hi)
      obtain ⟨p, hp, rfl, hf⟩ := (h.mem_predecessors hx).1 hj
      exact ⟨x, hx, (hregion hx).1 hi, .inr ⟨fun heq => hne (heq ▸ rfl), p, hp, hf,
        fun hin => hout ((hregion hp).2 hin)⟩⟩
  · intro hmem
    obtain ⟨x, hx, hin, ⟨y, hy, hys, hne, hf⟩ | ⟨hne, p, hp, hf, hout⟩⟩ := hmem
    · refine .inl ⟨x.id, (hregion hx).2 hin, y.id, (h.mem_successors hx).2 ⟨y, hy, rfl, hf⟩,
        fun hid => hne (h.eq_of_id_eq hy he hid), ?_⟩
      rwa [h.isShuffleBoundary_eq hy]
    · exact .inr ⟨x.id, (hregion hx).2 hin, fun hid => hne (h.eq_of_id_eq hx he hid), p.id,
        (h.mem_predecessors hx).2 ⟨p, hp, rfl, hf⟩, fun hin => hout ((hregion hp).1 hin)⟩

/-- A port is materialized when it feeds checkpoints only. -/
theorem isMaterialized_iff (h : g.Coherent) {p : PortId} (hp : g.isOutputPort p = true) :
    g.isMaterialized p = true ↔
      ∀ y ∈ g.elements, ∀ d ∈ y.inputIds, ⟨p, d⟩ ∈ g.connections → y.isCheckpoint = true := by
  rw [isMaterialized, List.all_eq_true]
  constructor
  · intro hall y hy d hd hc
    have hcheck := hall y.id ((h.mem_oppositeOwners hp).2 ⟨y, hy, rfl, d, hd, hc⟩)
    rwa [h.isCheckpoint_eq hy] at hcheck
  · intro hall i hi
    obtain ⟨y, hy, rfl, d, hd, hc⟩ := (h.mem_oppositeOwners hp).1 hi
    rw [h.isCheckpoint_eq hy]
    exact hall y hy d hd hc

end FlowGraph
end FlowPlan
