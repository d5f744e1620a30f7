import FlowPlan.Proofs.Collapsing

/-!
Which identities become map sides.

Identities are judged one after the other, and one that is taken out changes the neighbours of the
next.  `IsMapSide` tells the outcome from the graph in front of that pass alone, and
`reduceIdentities_collapsed` says that the pass leaves this graph without the other identities.
-/

namespace FlowPlan
namespace FlowGraph

variable {g t : FlowGraph}

/-! ## Neighbours by element -/

theorem isMapBody_iff (h : g.Coherent) {e : Element} (he : e ∈ g.elements) :
    g.isMapBody e.id = true ↔
      (∃ x ∈ g.elements, g.Feeds x e) ∧ (∃ y ∈ g.elements, g.Feeds e y) ∧
        (∀ x ∈ g.elements, g.Feeds x e → x.isStageBoundary = true) ∧
          ∀ y ∈ g.elements, g.Feeds e y → y.isBoundary = true := by
  have hstage : (∀ x ∈ g.elements, g.Feeds x e → g.isStageBoundary x.id = true) ↔
      ∀ x ∈ g.elements, g.Feeds x e → x.isStageBoundary = true :=
    forall₂_congr fun x hx => by rw [h.isStageBoundary_eq hx]
  have hbound : (∀ y ∈ g.elements, g.Feeds e y → g.isBoundary y.id = true) ↔
      ∀ y ∈ g.elements, g.Feeds e y → y.isBoundary = true :=
    forall₂_congr fun y hy => by rw [h.isBoundary_eq hy]
  rw [isMapBody]
  simp only [Bool.and_eq_true, Bool.not_eq_true', h.predecessors_isEmpty he,
    h.successors_isEmpty he, h.all_predecessors he, h.all_successors he, hstage, hbound, and_assoc]

theorem shufflesReadMaps_iff (h : g.Coherent) :
    g.shufflesReadMaps = true ↔
      ∀ x ∈ g.elements, ∀ y ∈ g.elements, x.isStageBoundary = true → y.isShuffleBoundary = true →
        ¬ g.Feeds x y := by
  rw [shufflesReadMaps, List.all_eq_true]
  constructor
  · intro hall x hx y hy hxs hys hf
    have hnot := (h.all_predecessors hy).1 (hall y.id (mem_idsWhere.2 ⟨y, hy, hys, rfl⟩)) x hx hf
    rw [h.isStageBoundary_eq hx, hxs] at hnot
    cases hnot
  · intro hall i hi
    obtain ⟨y, hy, hys, rfl⟩ := mem_idsWhere.1 hi
    refine (h.all_predecessors hy).2 fun x hx hf => ?_
    rw [h.isStageBoundary_eq hx, Bool.not_eq_true', ← Bool.not_eq_true]
    exact fun hxs => hall x hx y hy hxs hys hf

/-! ## Identities are no boundaries -/

theorem isBoundary_eq_false_of_isIdentity {e : Element} (h : e.isIdentity = true) :
    e.isBoundary = false := by
  simp only [Element.isIdentity, Bool.and_eq_true, beq_iff_eq, Element.isPseudo_iff] at h
  simp [Element.isBoundary, Element.isStageBoundary, Element.isShuffleBoundary, Element.isInput,
    Element.isOutput, Element.isCheckpoint, h, ElementKind.isInput, ElementKind.isOutput]

theorem isStageBoundary_eq_false_of_isIdentity {e : Element} (h : e.isIdentity = true) :
    e.isStageBoundary = false := by
  have hb := isBoundary_eq_false_of_isIdentity h
  rw [Element.isBoundary, Bool.or_eq_false_iff] at hb
  exact hb.1

theorem isIdentity_eq_false_of_isBoundary {e : Element} (h : e.isBoundary = true) :
    e.isIdentity = false := by
  rw [← Bool.not_eq_true]
  intro hi
  rw [isBoundary_eq_false_of_isIdentity hi] at h
  cases h

theorem isIdentity_eq_false_of_isStageBoundary {e : Element} (h : e.isStageBoundary = true) :
    e.isIdentity = false :=
  isIdentity_eq_false_of_isBoundary (by rw [Element.isBoundary, h, Bool.true_or])

theorem isIdentity_eq_false_of_isShuffleBoundary {e : Element} (h : e.isShuffleBoundary = true) :
    e.isIdentity = false :=
  isIdentity_eq_false_of_isBoundary (by rw [Element.isBoundary, h, Bool.or_true])

/-! ## Map sides -/

/-- Records of one element arrive at the other with only identities in between. -/
def Supplies (g : FlowGraph) (x y : Element) : Prop :=
  ∃ u ∈ x.outputIds, ∃ d ∈ y.inputIds, g.Carries (·.isIdentity = true) u d

/-- An identity between materialized data and boundaries, the last among the identities that it
shares a path with. -/
structure IsMapSide (g : FlowGraph) (e : Element) : Prop where
  supplied : ∃ x ∈ g.elements, x.isStageBoundary = true ∧ g.Supplies x e
  supplies : ∃ y ∈ g.elements, y.isBoundary = true ∧ g.Supplies e y
  before : ∀ x ∈ g.elements, g.Supplies x e →
    x.isStageBoundary = true ∨ (x.isIdentity = true ∧ x.id < e.id)
  behind : ∀ y ∈ g.elements, g.Supplies e y →
    y.isBoundary = true ∨ (y.isIdentity = true ∧ y.id < e.id)

/-- The identities that have been taken out when the turn is at the first of some that remain. -/
def TakenOut (g : FlowGraph) (rest : List ElementId) (x : Element) : Prop :=
  x.isIdentity = true ∧ x.id ∉ rest ∧ ¬ g.IsMapSide x

section Judging

variable {e : Element} {rest : List ElementId}

theorem supplies_of_takenOut {x y : Element} {u d : PortId} (hu : u ∈ x.outputIds)
    (hd : d ∈ y.inputIds) (h : g.Carries (g.TakenOut rest) u d) : g.Supplies x y :=
  ⟨u, hu, d, hd, h.mono fun _ hx => hx.1⟩

/-- What supplies an element is gone, or feeds it unless an identity in between does. -/
theorem Collapsed.exists_feeds_to (h : Collapsed g (g.TakenOut rest) t) (he : e ∈ t.elements)
    {x : Element} (hx : x ∈ g.elements) (hs : g.Supplies x e) :
    g.TakenOut rest x ∨ ∃ z ∈ t.elements, (z = x ∨ z.isIdentity = true) ∧ t.Feeds z e := by
  obtain ⟨u, hu, d, hd, hp⟩ := hs
  rcases hp.last_kept (g.TakenOut rest) with hp | ⟨z, hz, hzi, hnot, w, hw, hp⟩
  · by_cases hout : g.TakenOut rest x
    · exact .inl hout
    · have hxt := (h.elements x).2 ⟨hx, hout⟩
      exact .inr ⟨x, hxt, .inl rfl, (h.feeds_iff hxt he).2 ⟨u, hu, d, hd, hp⟩⟩
  · have hzt := (h.elements z).2 ⟨hz, hnot⟩
    exact .inr ⟨z, hzt, .inr hzi, (h.feeds_iff hzt he).2 ⟨w, hw, d, hd, hp⟩⟩

/-- What an element supplies is gone, or is fed by it unless an identity in between is. -/
theorem Collapsed.exists_feeds_from (h : Collapsed g (g.TakenOut rest) t) (he : e ∈ t.elements)
    {y : Element} (hy : y ∈ g.elements) (hs : g.Supplies e y) :
    g.TakenOut rest y ∨ ∃ z ∈ t.elements, (z = y ∨ z.isIdentity = true) ∧ t.Feeds e z := by
  obtain ⟨u, hu, d, hd, hp⟩ := hs
  rcases hp.first_kept (g.TakenOut rest) with hp | ⟨z, hz, hzi, hnot, w, hw, hp⟩
  · by_cases hout : g.TakenOut rest y
    · exact .inl hout
    · have hyt := (h.elements y).2 ⟨hy, hout⟩
      exact .inr ⟨y, hyt, .inl rfl, (h.feeds_iff he hyt).2 ⟨u, hu, d, hd, hp⟩⟩
  · have hzt := (h.elements z).2 ⟨hz, hnot⟩
    exact .inr ⟨z, hzt, .inr hzi, (h.feeds_iff he hzt).2 ⟨u, hu, w, hw, hp⟩⟩

theorem isMapSide_of_isMapBody (h : Collapsed g (g.TakenOut rest) t) (he : e ∈ t.elements)
    (hturn : ∀ x ∈ g.elements, x.isIdentity = true → (x.id ∉ rest ↔ x.id < e.id))
    (hm : t.isMapBody e.id = true) : g.IsMapSide e := by
  obtain ⟨⟨x, hx, hxe⟩, ⟨y, hy, hey⟩, hbefore, hbehind⟩ := (isMapBody_iff h.coherent he).1 hm
  obtain ⟨u, hu, d, hd, hp⟩ := (h.feeds_iff hx he).1 hxe
  obtain ⟨u', hu', d', hd', hp'⟩ := (h.feeds_iff he hy).1 hey
  refine ⟨⟨x, ((h.elements x).1 hx).1, hbefore x hx hxe, supplies_of_takenOut hu hd hp⟩,
    ⟨y, ((h.elements y).1 hy).1, hbehind y hy hey, supplies_of_takenOut hu' hd' hp'⟩, ?_, ?_⟩
  · intro x hx hs
    rcases h.exists_feeds_to he hx hs with hout | ⟨z, hz, hzx, hf⟩
    · exact .inr ⟨hout.1, (hturn x hx hout.1).1 hout.2.1⟩
    · have hzs := hbefore z hz hf
      rcases hzx with rfl | hzi
      · exact .inl hzs
      · simp [isStageBoundary_eq_false_of_isIdentity hzi] at hzs
  · intro y hy hs
    rcases h.exists_feeds_from he hy hs with hout | ⟨z, hz, hzy, hf⟩
    · exact .inr ⟨hout.1, (hturn y hy hout.1).1 hout.2.1⟩
    · have hzb := hbehind z hz hf
      rcases hzy with rfl | hzi
      · exact .inl hzb
      · simp [isBoundary_eq_false_of_isIdentity hzi] at hzb

/-- An identity that was left in place in its turn neither supplies a later one nor is supplied by
it, so that the neighbours of a map side are boundaries when its turn comes. -/
theorem isMapBody_of_isMapSide (h : Collapsed g (g.TakenOut rest) t) (he : e ∈ t.elements)
    (hi : e.isIdentity = true)
    (hturn : ∀ x ∈ g.elements, x.isIdentity = true → (x.id ∉ rest ↔ x.id < e.id))
    (hm : g.IsMapSide e) : t.isMapBody e.id = true := by
  have heg := ((h.elements e).1 he).1
  have hmap : ∀ x ∈ t.elements, x.isIdentity = true → x.id < e.id → g.IsMapSide x := by
    intro x hx hxi hlt
    obtain ⟨hxg, hout⟩ := (h.elements x).1 hx
    by_contra hnm
    exact hout ⟨hxi, (hturn x hxg hxi).2 hlt, hnm⟩
  refine (isMapBody_iff h.coherent he).2 ⟨?_, ?_, fun x hx hf => ?_, fun y hy hf => ?_⟩
  · obtain ⟨x, hx, hxs, hs⟩ := hm.supplied
    have hxi := isIdentity_eq_false_of_isStageBoundary hxs
    obtain ⟨z, hz, -, hf⟩ := (h.exists_feeds_to he hx hs).resolve_left fun hout => by
      simp [hout.1] at hxi
    exact ⟨z, hz, hf⟩
  · obtain ⟨y, hy, hyb, hs⟩ := hm.supplies
    obtain ⟨z, hz, -, hf⟩ := (h.exists_feeds_from he hy hs).resolve_left fun hout => by
      simp [isBoundary_eq_false_of_isIdentity hout.1] at hyb
    exact ⟨z, hz, hf⟩
  · obtain ⟨u, hu, d, hd, hp⟩ := (h.feeds_iff hx he).1 hf
    have hs : g.Supplies x e := supplies_of_takenOut hu hd hp
    refine (hm.before x ((h.elements x).1 hx).1 hs).resolve_right fun ⟨hxi, hlt⟩ => ?_
    rcases (hmap x hx hxi hlt).behind e heg hs with hb | ⟨-, hlt'⟩
    · simp [isBoundary_eq_false_of_isIdentity hi] at hb
    · exact absurd hlt (Nat.lt_asymm hlt')
  · obtain ⟨u, hu, d, hd, hp⟩ := (h.feeds_iff he hy).1 hf
    have hs : g.Supplies e y := supplies_of_takenOut hu hd hp
    refine (hm.behind y ((h.elements y).1 hy).1 hs).resolve_right fun ⟨hyi, hlt⟩ => ?_
    rcases (hmap y hy hyi hlt).before e heg hs with hb | ⟨-, hlt'⟩
    · simp [isStageBoundary_eq_false_of_isIdentity hi] at hb
    · exact absurd hlt (Nat.lt_asymm hlt')

end Judging

/-! ## The pass -/

theorem takenOut_cons_iff {e x : Element} {rest : List ElementId} (h : g.Coherent)
    (he : e ∈ g.elements) (hx : x ∈ g.elements) (hi : e.isIdentity = true) (hnot : e.id ∉ rest) :
    g.TakenOut rest x ↔ g.TakenOut (e.id :: rest) x ∨ (x = e ∧ ¬ g.IsMapSide e) := by
  unfold TakenOut
  rw [List.mem_cons, not_or]
  constructor
  · intro ⟨hxi, hrest, hnm⟩
    by_cases hid : x.id = e.id
    · obtain rfl := h.eq_of_id_eq hx he hid
      exact .inr ⟨rfl, hnm⟩
    · exact .inl ⟨hxi, ⟨hid, hrest⟩, hnm⟩
  · intro hor
    rcases hor with ⟨hxi, ⟨-, hrest⟩, hnm⟩ | ⟨rfl, hnm⟩
    · exact ⟨hxi, hrest, hnm⟩
    · exact ⟨hi, hnot, hnm⟩

theorem bypassUnlessMap_collapsed {s : FlowGraph × Nat} {done rest : List ElementId} {e : Element}
    (h : g.Coherent) (hids : g.identities = done ++ e.id :: rest) (he : e ∈ g.elements)
    (hi : e.isIdentity = true) (hs : Collapsed g (g.TakenOut (e.id :: rest)) s.1) :
    Collapsed g (g.TakenOut rest) (bypassUnlessMap s e.id).1 := by
  have hsorted := h.idsWhere_ascending (·.isIdentity)
  rw [show g.idsWhere (·.isIdentity) = done ++ e.id :: rest from hids,
    List.pairwise_append] at hsorted
  obtain ⟨-, hrest, hdone⟩ := hsorted
  have hlater := (List.pairwise_cons.1 hrest).1
  have hnot : e.id ∉ rest := fun hmem => Nat.lt_irrefl _ (hlater _ hmem)
  have hturn : ∀ x ∈ g.elements, x.isIdentity = true → (x.id ∉ e.id :: rest ↔ x.id < e.id) := by
    intro x hx hxi
    have hmem : x.id ∈ done ++ e.id :: rest := hids ▸ mem_idsWhere.2 ⟨x, hx, hxi, rfl⟩
    constructor
    · intro hlate
      have hearly := (List.mem_append.1 hmem).resolve_right hlate
      exact hdone _ hearly _ List.mem_cons_self
    · intro hlt hlate
      rcases List.mem_cons.1 hlate with heq | hlate
      · exact Nat.lt_irrefl _ (heq ▸ hlt)
      · exact Nat.lt_asymm hlt (hlater _ hlate)
  have hes : e ∈ s.1.elements := (hs.elements e).2 ⟨he, fun hout => hout.2.1 List.mem_cons_self⟩
  have hcontains : s.1.contains e.id = true := List.any_eq_true.2 ⟨e, hes, beq_self_eq_true e.id⟩
  have hcons := fun x hx => takenOut_cons_iff (x := x) h he hx hi hnot
  unfold bypassUnlessMap
  rw [hcontains, Bool.not_true, Bool.false_or]
  by_cases hm : s.1.isMapBody e.id = true
  · rw [if_pos hm]
    have hside := isMapSide_of_isMapBody hs hes hturn hm
    exact hs.congr fun x hx => by
      rw [hcons x hx]
      exact ⟨.inl, fun hor => hor.resolve_right fun hne => hne.2 hside⟩
  · rw [if_neg hm]
    have hside : ¬ g.IsMapSide e := fun hside => hm (isMapBody_of_isMapSide hs hes hi hturn hside)
    obtain ⟨a, b, hin, hout⟩ :=
      Element.ports_of_isPseudo (h.shaped e he) (isPseudo_of_isIdentity hi)
    exact (hs.bypass hes hin hout).congr fun x hx => by
      rw [hcons x hx]
      exact or_congr_right ⟨fun heq => ⟨heq, hside⟩, And.left⟩

/-- The identities that are no map side go, whatever else is around them. -/
theorem reduceIdentities_collapsed (h : g.Coherent) :
    Collapsed g (fun x => x.isIdentity = true ∧ ¬ g.IsMapSide x) g.reduceIdentities.1 := by
  have hstart : Collapsed g (g.TakenOut g.identities) g :=
    .refl h fun x hx hout => hout.2.1 (mem_idsWhere.2 ⟨x, hx, hout.1, rfl⟩)
  have hend := (foldl_rest_induction (f := bypassUnlessMap)
    (P := fun s rest => (∃ done, g.identities = done ++ rest) ∧ Collapsed g (g.TakenOut rest) s.1)
    ?_ g.identities (g, 0) ⟨⟨[], rfl⟩, hstart⟩).2
  · exact hend.congr fun x _ => by simp [TakenOut]
  · intro s i rest hs
    obtain ⟨⟨done, hids⟩, hs⟩ := hs
    have hmem : i ∈ g.identities := by
      rw [hids]
      exact List.mem_append_right _ List.mem_cons_self
    obtain ⟨e, he, hi, rfl⟩ := mem_idsWhere.1 hmem
    refine ⟨⟨done ++ [e.id], ?_⟩, bypassUnlessMap_collapsed h hids he hi hs⟩
    rw [List.append_assoc]
    exact hids

end FlowGraph
end FlowPlan
