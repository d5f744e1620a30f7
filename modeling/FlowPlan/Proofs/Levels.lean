import FlowPlan.Proofs.CycleSearch
import FlowPlan.Proofs.Rewriting
import Mathlib.Data.Finset.Card

/-!
Levels: numbers for the elements of a graph that rise along every connection.

A graph has levels exactly if it has no cycle of elements, and levels are easier to keep: a pseudo
element that is put in goes between two levels, and one that is taken out leaves the others where
they are.  So normalization never closes a cycle.
-/

namespace FlowPlan
namespace FlowGraph

open Relation

variable {g k : FlowGraph} {level : ElementId → Nat}

/-- Every element is above those that feed it. -/
def IsLevelling (g : FlowGraph) (level : ElementId → Nat) : Prop :=
  ∀ x ∈ g.elements, ∀ y ∈ g.elements, g.Feeds x y → level x.id < level y.id

/-! ## Levels of a graph without cycles -/

theorem successors_eq_nil {i : ElementId} (hi : i ∉ g.elementIds) : g.successors i = [] := by
  have hnone : g.element? i = none :=
    List.find?_eq_none.2 fun x hx hid => hi (List.mem_map.2 ⟨x, hx, by simpa using hid⟩)
  rw [successors, outgoing, outputsOf, hnone]
  rfl

theorem successors_subset (h : g.Coherent) :
    ∀ i ∈ g.elementIds, ∀ j ∈ g.successors i, j ∈ g.elementIds := by
  intro i hi j hj
  obtain ⟨x, hx, rfl⟩ := List.mem_map.1 hi
  obtain ⟨y, hy, rfl, -⟩ := (h.mem_successors hx).1 hj
  exact List.mem_map.2 ⟨y, hy, rfl⟩

theorem cycles_eq_nil_iff (h : g.Coherent) :
    g.cycles = [] ↔ ∀ i, ¬ TransGen (fun i j => j ∈ g.successors i) i i :=
  Cycle.closed_eq_nil_iff (successors_subset h) fun _ => successors_eq_nil

open Classical in
/-- Where no element is reached from itself, the number of elements that an element is reached from
is its level. -/
theorem exists_levelling (h : g.Coherent) (hc : g.cycles = []) : ∃ level, g.IsLevelling level := by
  let behind (i : ElementId) : Finset ElementId :=
    g.elementIds.toFinset.filter fun j => TransGen (fun i j => j ∈ g.successors i) j i
  refine ⟨fun i => (behind i).card, fun x hx y hy hf => Finset.card_lt_card ?_⟩
  have hstep : y.id ∈ g.successors x.id := (h.mem_successors hx).2 ⟨y, hy, rfl, hf⟩
  refine Finset.ssubset_iff_of_subset ?_ |>.2 ⟨x.id, ?_, ?_⟩
  · intro j hj
    obtain ⟨hj, hpath⟩ := Finset.mem_filter.1 hj
    exact Finset.mem_filter.2 ⟨hj, hpath.tail hstep⟩
  · exact Finset.mem_filter.2 ⟨List.mem_toFinset.2 (List.mem_map.2 ⟨x, hx, rfl⟩), .single hstep⟩
  · exact fun hmem => (cycles_eq_nil_iff h).1 hc x.id (Finset.mem_filter.1 hmem).2

theorem exists_of_mem_successors {i j : ElementId} (hj : j ∈ g.successors i) :
    ∃ x ∈ g.elements, x.id = i := by
  by_contra hnot
  rw [successors_eq_nil fun hi => hnot (List.mem_map.1 hi)] at hj
  cases hj

theorem IsLevelling.cycles_eq_nil (h : g.Coherent) (hl : g.IsLevelling level) : g.cycles = [] := by
  refine (cycles_eq_nil_iff h).2 fun i hpath => ?_
  have hlt : TransGen (· < ·) (level i) (level i) :=
    TransGen.lift level (fun i j hj => by
      obtain ⟨x, hx, rfl⟩ := exists_of_mem_successors hj
      obtain ⟨y, hy, rfl, hf⟩ := (h.mem_successors hx).1 hj
      exact hl x hx y hy hf) _ _ hpath
  rw [transGen_eq_self] at hlt
  exact Nat.lt_irrefl _ hlt

/-! ## Levels through local changes -/

section PutIn

variable {o x : Element} {u : PortId}

/-- A new pseudo element is put between the element that feeds it and those that it feeds. -/
theorem feeds_of_putIn (h : g.Coherent) (ho : o ∈ g.elements) (hu : u ∈ o.outputIds)
    (helems : k.elements = g.elements ++ [x]) (hin : x.inputIds = [g.entry])
    (hout : x.outputIds = [g.exit])
    (hconn : ∀ c ∈ k.connections, c ∈ g.connections ∨ c = ⟨u, g.entry⟩ ∨
      (c.source = g.exit ∧ ∃ y ∈ g.elements, c.target ∈ y.inputIds ∧ level o.id < level y.id))
    {y z : Element} (hy : y ∈ k.elements) (hz : z ∈ k.elements) (hf : k.Feeds y z) :
    (y ∈ g.elements ∧ z ∈ g.elements ∧ g.Feeds y z) ∨ (y = o ∧ z = x) ∨
      (y = x ∧ z ∈ g.elements ∧ level o.id < level z.id) := by
  have hside : ∀ w ∈ k.elements, ∀ p ∈ w.portIds,
      (w ∈ g.elements ∧ p < g.entry) ∨ (w = x ∧ g.entry ≤ p) := by
    intro w hw p hp
    rw [helems, List.mem_append, List.mem_singleton] at hw
    rcases hw with hw | rfl
    · exact .inl ⟨hw, h.port_lt hw hp⟩
    · rcases (Element.mem_portIds_of_single hin hout).1 hp with rfl | rfl
      · exact .inr ⟨rfl, Nat.le_refl _⟩
      · exact .inr ⟨rfl, Nat.le_succ _⟩
  obtain ⟨c, hc, hs, ht⟩ := hf
  have hsource := hside y hy c.source (Element.mem_portIds.2 (.inr hs))
  have htarget := hside z hz c.target (Element.mem_portIds.2 (.inl ht))
  rcases hconn c hc with hold | rfl | ⟨hexit, w, hw, htw, hlt⟩
  · have hyg := hsource.resolve_right fun hnew => Nat.not_lt.2 hnew.2 (h.source_lt hold)
    have hzg := htarget.resolve_right fun hnew => Nat.not_lt.2 hnew.2 (h.target_lt hold)
    exact .inl ⟨hyg.1, hzg.1, c, hold, hs, ht⟩
  · have hult := h.port_lt ho (Element.mem_portIds.2 (.inr hu))
    have hyg := hsource.resolve_right fun hnew => Nat.not_lt.2 hnew.2 hult
    have hzx := htarget.resolve_left fun hold => Nat.lt_irrefl _ hold.2
    exact .inr (.inl ⟨h.eq_of_output hyg.1 ho hs hu, hzx.1⟩)
  · have hyx := hsource.resolve_left fun hold =>
      Nat.not_lt.2 (Nat.le_succ g.entry) (show g.exit < g.entry from hexit ▸ hold.2)
    have htlt := h.port_lt hw (Element.mem_portIds.2 (.inl htw))
    have hzg := htarget.resolve_right fun hnew => Nat.not_lt.2 hnew.2 htlt
    obtain rfl := h.eq_of_input hzg.1 hw ht htw
    exact .inr (.inr ⟨hyx.1, hw, hlt⟩)

theorem exists_levelling_of_putIn (h : g.Coherent) (hl : g.IsLevelling level)
    (ho : o ∈ g.elements) (hu : u ∈ o.outputIds) (helems : k.elements = g.elements ++ [x])
    (hid : x.id = g.ids.nextElement) (hin : x.inputIds = [g.entry]) (hout : x.outputIds = [g.exit])
    (hconn : ∀ c ∈ k.connections, c ∈ g.connections ∨ c = ⟨u, g.entry⟩ ∨
      (c.source = g.exit ∧ ∃ y ∈ g.elements, c.target ∈ y.inputIds ∧ level o.id < level y.id)) :
    ∃ level, k.IsLevelling level := by
  -- The old levels are spread out, and the new element comes right above the one that feeds it.
  refine ⟨fun i => if i < g.ids.nextElement then 2 * level i else 2 * level o.id + 1, ?_⟩
  have hlow : ∀ y ∈ g.elements, (if y.id < g.ids.nextElement then 2 * level y.id
      else 2 * level o.id + 1) = 2 * level y.id := fun y hy => if_pos (h.idsBelow y hy)
  have hhigh : (if x.id < g.ids.nextElement then 2 * level x.id else 2 * level o.id + 1)
      = 2 * level o.id + 1 := if_neg (by rw [hid]; exact Nat.lt_irrefl _)
  intro y hy z hz hf
  dsimp only
  rcases feeds_of_putIn h ho hu helems hin hout hconn hy hz hf with
    ⟨hyg, hzg, hfg⟩ | ⟨rfl, rfl⟩ | ⟨rfl, hzg, hlt⟩
  · have hlt := hl y hyg z hzg hfg
    rw [hlow y hyg, hlow z hzg]
    omega
  · rw [hlow y ho, hhigh]
    omega
  · rw [hlow z hzg, hhigh]
    omega

end PutIn

theorem exists_levelling_insertPseudoOn (h : g.Coherent) (hl : g.IsLevelling level)
    {c : Connection} (hc : c ∈ g.connections) (boundary : Boundary) :
    ∃ level, (g.insertPseudoOn c boundary).IsLevelling level := by
  obtain ⟨o, ho, hu⟩ := h.source_mem hc
  obtain ⟨y, hy, hd⟩ := h.target_mem hc
  refine exists_levelling_of_putIn h hl ho hu (elements_insertPseudoOn g c boundary) rfl rfl rfl ?_
  intro c' hc'
  rcases (mem_insertPseudoOn h hc boundary).1 hc' with hc' | rfl | rfl
  · exact .inl hc'.1
  · exact .inr (.inl rfl)
  · exact .inr (.inr ⟨rfl, y, hy, hd, hl o ho y hy ⟨c, hc, hu, hd⟩⟩)

theorem exists_levelling_insertPseudoAfter (h : g.Coherent) (hl : g.IsLevelling level)
    {p : PortId} (hp : g.isOutputPort p = true) (boundary : Boundary) :
    ∃ level, (g.insertPseudoAfter p boundary).IsLevelling level := by
  obtain ⟨o, ho, hu⟩ := isOutputPort_iff.1 hp
  refine exists_levelling_of_putIn h hl ho hu (elements_insertPseudoAfter g p boundary)
    rfl rfl rfl ?_
  intro c hc
  rcases (mem_insertPseudoAfter h hp boundary).1 hc with hc | rfl | ⟨hs, hold⟩
  · exact .inl hc.1
  · exact .inr (.inl rfl)
  · obtain ⟨y, hy, hd⟩ := h.target_mem hold
    exact .inr (.inr ⟨hs, y, hy, hd, hl o ho y hy ⟨_, hold, hu, hd⟩⟩)

theorem exists_levelling_addShare (h : g.Coherent) (hl : g.IsLevelling level) {e : Element}
    (he : e ∈ g.elements) {i o : Connection} (hi : i ∈ g.connections) (ho : o ∈ g.connections)
    (ht : i.target ∈ e.inputIds) (hs : o.source ∈ e.outputIds) (name type : String) (n : Nat) :
    ∃ level, (addShare name type g ((i, o), n)).IsLevelling level := by
  obtain ⟨w, hw, hu⟩ := h.source_mem hi
  obtain ⟨y, hy, hd⟩ := h.target_mem ho
  refine exists_levelling_of_putIn h hl hw hu (elements_addShare g name type ((i, o), n))
    rfl rfl rfl ?_
  intro c hc
  rcases (mem_addShare h hi ho name type n).1 hc with hc | rfl | rfl
  · exact .inl hc
  · exact .inr (.inl rfl)
  · have hbefore := hl w hw e he ⟨i, hi, hu, ht⟩
    have hbehind := hl e he y hy ⟨o, ho, hs, hd⟩
    exact .inr (.inr ⟨rfl, y, hy, hd, hbefore.trans hbehind⟩)

theorem exists_levelling_addShares (h : g.Coherent) (hl : ∃ level, g.IsLevelling level)
    {e : Element} (he : e ∈ g.elements) (name type : String)
    (pairs : List ((Connection × Connection) × Nat))
    (hpairs : ∀ pair ∈ pairs, (pair.1.1 ∈ g.connections ∧ pair.1.1.target ∈ e.inputIds) ∧
      pair.1.2 ∈ g.connections ∧ pair.1.2.source ∈ e.outputIds) :
    ∃ level, (g.addShares name type pairs).IsLevelling level := by
  induction pairs generalizing g with
  | nil => exact hl
  | cons pair pairs ih =>
    obtain ⟨⟨i, o⟩, n⟩ := pair
    obtain ⟨⟨hi, ht⟩, ho, hs⟩ := hpairs _ List.mem_cons_self
    obtain ⟨level, hl⟩ := hl
    have hold : ∀ c ∈ g.connections, c ∈ (addShare name type g ((i, o), n)).connections :=
      fun c hc => (mem_addShare h hi ho name type n).2 (.inl hc)
    refine ih (addShare_coherent h name type _)
      (exists_levelling_addShare h hl he hi ho ht hs name type n) ?_ fun pair hp => ?_
    · rw [elements_addShare]
      exact List.mem_append_left _ he
    · obtain ⟨⟨hi, ht⟩, ho, hs⟩ := hpairs pair (List.mem_cons_of_mem _ hp)
      exact ⟨⟨hold _ hi, ht⟩, hold _ ho, hs⟩

theorem IsLevelling.removeElement (h : g.Coherent) (hl : g.IsLevelling level) {e : Element}
    (he : e ∈ g.elements) : (g.removeElement e.id).IsLevelling level := by
  intro x hx y hy hf
  obtain ⟨c, hc, hs, ht⟩ := hf
  exact hl x ((mem_removeElement h he).1 hx).1 y ((mem_removeElement h he).1 hy).1
    ⟨c, ((mem_connections_removeElement h he).1 hc).1, hs, ht⟩

theorem IsLevelling.bypass (h : g.Coherent) (hl : g.IsLevelling level) {e : Element}
    (he : e ∈ g.elements) : (g.bypass e.id).IsLevelling level := by
  intro x hx y hy hf
  obtain ⟨⟨u, d⟩, hc, hs, ht⟩ := hf
  have hx := ((mem_elements_bypass h he).1 hx).1
  have hy := ((mem_elements_bypass h he).1 hy).1
  rcases ((mem_bypass h he).1 hc).1 with hc | ⟨⟨a, ha, hua⟩, b, hb, hbd⟩
  · exact hl x hx y hy ⟨_, hc, hs, ht⟩
  · exact (hl x hx e he ⟨_, hua, hs, ha⟩).trans (hl e he y hy ⟨_, hbd, hb, ht⟩)

theorem LocalChange.exists_levelling (h : g.Coherent) (hs : LocalChange g k)
    (hl : ∃ level, g.IsLevelling level) : ∃ level, k.IsLevelling level := by
  obtain ⟨level, hl⟩ := hl
  cases hs with
  | insertOn hc boundary => exact exists_levelling_insertPseudoOn h hl hc boundary
  | insertAfter hc boundary =>
    exact exists_levelling_insertPseudoAfter h hl (h.joined _ hc).1 boundary
  | bypass he _ => exact ⟨level, hl.bypass h he⟩
  | @split e he _ =>
    let type := ((g.inputsOf e.id).head?.map (·.type)).getD ""
    let pairs := (g.throughputs e.id).zipIdx 1
    obtain ⟨level', hl'⟩ := exists_levelling_addShares h ⟨level, hl⟩ he (g.nameOf e.id) type pairs
      fun pair hpair => (mem_throughputs h he).1 (List.fst_mem_of_mem_zipIdx hpair)
    rw [splitIdentity_eq]
    exact ⟨level', hl'.removeElement (addShares_coherent h _ type pairs)
      (mem_addShares_of_mem _ type pairs he)⟩

/-- Normalization closes no cycle. -/
theorem exists_levelling_normalize (h : g.WellFormed) (hc : g.flatten.1.cycles = []) :
    ∃ level, g.normalize.1.IsLevelling level := by
  have hflat := (flatten_wellFormed h).coherent
  exact ((normalize_rewrites hflat).induction
    (fun _ _ hg hs hl => hs.exists_levelling hg hl) hflat (exists_levelling hflat hc)).2

end FlowGraph
end FlowPlan
