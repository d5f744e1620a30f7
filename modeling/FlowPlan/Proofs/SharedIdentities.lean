import FlowPlan.Proofs.ShuffleFeeds
import Mathlib.Data.Finset.Card

/-!
Identities with several ways in and several ways out.

Taking an identity out ties everything that fed it to everything that it fed, so the identities
that stay, the map sides, may gain connections in the last pass.  A map side ends up with one
connection for each port that brings it records through identities, and with one for each port that
it delivers records to, which is what `normalization_splits_identities_iff` says of all of them.
-/

namespace FlowPlan
namespace FlowGraph

variable {g t : FlowGraph} {e : Element}

/-! ## Counting the connections of an element -/

theorem length_le_one_iff {α : Type} [DecidableEq α] {l : List α} (h : l.Nodup) :
    l.length ≤ 1 ↔ ∀ a ∈ l, ∀ b ∈ l, a = b := by
  rw [← List.toFinset_card_of_nodup h, Finset.card_le_one]
  simp only [List.mem_toFinset]

theorem outgoing_nodup (h : g.Coherent) (he : e ∈ g.elements) : (g.outgoing e.id).Nodup := by
  rw [outgoing, h.outputsOf_eq he, List.nodup_flatMap]
  refine ⟨fun p _ => h.connectedOnce.filter _, ?_⟩
  have hn := h.portIds_nodup he
  rw [Element.portIds_eq] at hn
  refine (List.pairwise_map.1 (List.nodup_append.1 hn).2.1).imp fun {p q} hne c hc hc' => hne ?_
  simp only [List.mem_filter, beq_iff_eq] at hc hc'
  exact hc.2.symm.trans hc'.2

/-- An element with one input port has a connection for each port that feeds it. -/
theorem incoming_le_one_iff (h : g.Coherent) (he : e ∈ g.elements) {a : PortId}
    (hin : e.inputIds = [a]) :
    (g.incoming e.id).length ≤ 1 ↔
      ∀ u v, ⟨u, a⟩ ∈ g.connections → ⟨v, a⟩ ∈ g.connections → u = v := by
  rw [length_le_one_iff (incoming_nodup h he)]
  simp only [h.mem_incoming he, hin, List.mem_singleton]
  constructor
  · intro hall u v hu hv
    exact congrArg Connection.source (hall _ ⟨hu, rfl⟩ _ ⟨hv, rfl⟩)
  · rintro hall ⟨u, _⟩ ⟨hu, rfl⟩ ⟨v, _⟩ ⟨hv, rfl⟩
    rw [hall u v hu hv]

theorem outgoing_le_one_iff (h : g.Coherent) (he : e ∈ g.elements) {b : PortId}
    (hout : e.outputIds = [b]) :
    (g.outgoing e.id).length ≤ 1 ↔
      ∀ d d', ⟨b, d⟩ ∈ g.connections → ⟨b, d'⟩ ∈ g.connections → d = d' := by
  rw [length_le_one_iff (outgoing_nodup h he)]
  simp only [h.mem_outgoing he, hout, List.mem_singleton]
  constructor
  · intro hall d d' hd hd'
    exact congrArg Connection.target (hall _ ⟨hd, rfl⟩ _ ⟨hd', rfl⟩)
  · rintro hall ⟨_, d⟩ ⟨hd, rfl⟩ ⟨_, d'⟩ ⟨hd', rfl⟩
    rw [hall d d' hd hd']

theorem identitiesAreSplit_iff :
    g.identitiesAreSplit = true ↔ ∀ e ∈ g.elements, e.isIdentity = true →
      (g.incoming e.id).length ≤ 1 ∨ (g.outgoing e.id).length ≤ 1 := by
  simp only [identitiesAreSplit, List.all_eq_true, Bool.or_eq_true, decide_eq_true_eq]
  constructor
  · exact fun hall e he hi => hall e.id (mem_idsWhere.2 ⟨e, he, hi, rfl⟩)
  · intro hall i hmem
    obtain ⟨e, he, hi, rfl⟩ := mem_idsWhere.1 hmem
    exact hall e he hi

/-! ## What reaches a map side -/

/-- Records that an element other than an identity sends from a port arrive at the element with only
identities in between. -/
def Brings (g : FlowGraph) (u : PortId) (e : Element) : Prop :=
  ∃ x ∈ g.elements, x.isIdentity = false ∧ u ∈ x.outputIds ∧
    ∃ a ∈ e.inputIds, g.Carries (·.isIdentity = true) u a

/-- Records of the element arrive at a port of an element other than an identity. -/
def Delivers (g : FlowGraph) (e : Element) (d : PortId) : Prop :=
  ∃ y ∈ g.elements, y.isIdentity = false ∧ d ∈ y.inputIds ∧
    ∃ b ∈ e.outputIds, g.Carries (·.isIdentity = true) b d

/-- Of two identities one of which supplies the other, at most one is a map side. -/
theorem IsMapSide.not_supplies {x : Element} (hx : x ∈ g.elements) (he : e ∈ g.elements)
    (hxi : x.isIdentity = true) (hei : e.isIdentity = true) (hmx : g.IsMapSide x)
    (hme : g.IsMapSide e) : ¬ g.Supplies x e := by
  intro hs
  have hxe : x.id < e.id := by
    rcases hme.before x hx hs with hb | hlt
    · rw [isStageBoundary_eq_false_of_isIdentity hxi] at hb
      cases hb
    · exact hlt.2
  have hex : e.id < x.id := by
    rcases hmx.behind e he hs with hb | hlt
    · rw [isBoundary_eq_false_of_isIdentity hei] at hb
      cases hb
    · exact hlt.2
  exact Nat.lt_asymm hxe hex

theorem isMapSide_of_stays {z : Element} (hi : z.isIdentity = true)
    (hstay : ¬ (z.isIdentity = true ∧ ¬ g.IsMapSide z)) : g.IsMapSide z := by
  by_contra hno
  exact hstay ⟨hi, hno⟩

section Kept

variable (h : Collapsed g (fun x => x.isIdentity = true ∧ ¬ g.IsMapSide x) t)
  (he : e ∈ g.elements) (hi : e.isIdentity = true) (hm : g.IsMapSide e)

include h he hm

theorem mem_kept : e ∈ t.elements := (h.elements e).2 ⟨he, fun hout => hout.2 hm⟩

include hi

/-- On a way to a map side there is no other map side. -/
theorem incoming_kept_iff {a u : PortId} (hin : e.inputIds = [a]) :
    ⟨u, a⟩ ∈ t.connections ↔ g.Brings u e := by
  have ha : a ∈ e.inputIds := by rw [hin]; exact List.mem_singleton_self a
  have het := mem_kept h he hm
  constructor
  · intro hc
    obtain ⟨x, hx, hu⟩ := h.coherent.source_mem hc
    have hp := ((h.connections u a).1 hc).2.2
    have hway : g.Carries (·.isIdentity = true) u a := hp.mono fun _ hz => hz.1
    obtain ⟨hxg, hstay⟩ := (h.elements x).1 hx
    refine ⟨x, hxg, ?_, hu, a, ha, hway⟩
    by_contra hxi
    rw [Bool.not_eq_false] at hxi
    have hmx := isMapSide_of_stays hxi hstay
    exact hmx.not_supplies hxg he hxi hi hm ⟨u, hu, a, ha, hway⟩
  · intro hbrings
    obtain ⟨x, hx, hxi, hu, a', ha', hway⟩ := hbrings
    rw [hin, List.mem_singleton] at ha'
    subst ha'
    have hxt : x ∈ t.elements := (h.elements x).2 ⟨hx, fun hout => by simp [hout.1] at hxi⟩
    refine (h.connections u a').2 ⟨isOutputPort_iff.2 ⟨x, hxt, hu⟩,
      isInputPort_iff.2 ⟨e, het, ha⟩, ?_⟩
    refine (hway.last_kept _).resolve_right fun hlast => ?_
    obtain ⟨z, hz, hzi, hstay, w, hw, hp⟩ := hlast
    have hmz := isMapSide_of_stays hzi hstay
    exact hmz.not_supplies hz he hzi hi hm ⟨w, hw, a', ha, hp.mono fun _ hv => hv.1⟩

theorem outgoing_kept_iff {b d : PortId} (hout : e.outputIds = [b]) :
    ⟨b, d⟩ ∈ t.connections ↔ g.Delivers e d := by
  have hb : b ∈ e.outputIds := by rw [hout]; exact List.mem_singleton_self b
  have het := mem_kept h he hm
  constructor
  · intro hc
    obtain ⟨y, hy, hd⟩ := h.coherent.target_mem hc
    have hp := ((h.connections b d).1 hc).2.2
    have hway : g.Carries (·.isIdentity = true) b d := hp.mono fun _ hz => hz.1
    obtain ⟨hyg, hstay⟩ := (h.elements y).1 hy
    refine ⟨y, hyg, ?_, hd, b, hb, hway⟩
    by_contra hyi
    rw [Bool.not_eq_false] at hyi
    have hmy := isMapSide_of_stays hyi hstay
    exact hm.not_supplies he hyg hi hyi hmy ⟨b, hb, d, hd, hway⟩
  · intro hdelivers
    obtain ⟨y, hy, hyi, hd, b', hb', hway⟩ := hdelivers
    rw [hout, List.mem_singleton] at hb'
    subst hb'
    have hyt : y ∈ t.elements := (h.elements y).2 ⟨hy, fun hgone => by simp [hgone.1] at hyi⟩
    refine (h.connections b' d).2 ⟨isOutputPort_iff.2 ⟨e, het, hb⟩,
      isInputPort_iff.2 ⟨y, hyt, hd⟩, ?_⟩
    refine (hway.first_kept _).resolve_right fun hfirst => ?_
    obtain ⟨z, hz, hzi, hstay, w, hw, hp⟩ := hfirst
    have hmz := isMapSide_of_stays hzi hstay
    exact hm.not_supplies he hz hi hzi hmz ⟨b', hb, w, hw, hp.mono fun _ hv => hv.1⟩

end Kept

/-! ## The normal form -/

/-- What is brought to a map side of the normal form or delivered by it has one port. -/
def HasNarrowMaps (g : FlowGraph) : Prop :=
  ∀ e ∈ g.elements, e.isIdentity = true → g.IsMapSide e →
    (∀ u v, g.Brings u e → g.Brings v e → u = v) ∨
      ∀ d d', g.Delivers e d → g.Delivers e d' → d = d'

theorem normalize_collapsed (h : g.WellFormed) :
    Collapsed g.unreduced (fun x => x.isIdentity = true ∧ ¬ g.unreduced.IsMapSide x)
      g.normalize.1 := by
  rw [normalize_eq]
  exact reduceIdentities_collapsed (unreduced_spec h).1

/-- No identity of the normal form has several incoming and several outgoing connections exactly if
no map side joins several ports to several, through the identities that are taken out. -/
theorem normalization_splits_identities_iff (h : g.WellFormed) :
    g.normalize.1.identitiesAreSplit = true ↔ g.unreduced.HasNarrowMaps := by
  have hk := (unreduced_spec h).1
  have hreduced := normalize_collapsed h
  have hdegree : ∀ e ∈ g.unreduced.elements, e.isIdentity = true → g.unreduced.IsMapSide e →
      (((g.normalize.1.incoming e.id).length ≤ 1 ↔
          ∀ u v, g.unreduced.Brings u e → g.unreduced.Brings v e → u = v) ∧
        ((g.normalize.1.outgoing e.id).length ≤ 1 ↔
          ∀ d d', g.unreduced.Delivers e d → g.unreduced.Delivers e d' → d = d')) := by
    intro e he hi hm
    have het := mem_kept hreduced he hm
    obtain ⟨a, b, hin, hout⟩ :=
      Element.ports_of_isPseudo (hk.shaped e he) (isPseudo_of_isIdentity hi)
    rw [incoming_le_one_iff hreduced.coherent het hin,
      outgoing_le_one_iff hreduced.coherent het hout]
    simp only [incoming_kept_iff hreduced he hi hm hin, outgoing_kept_iff hreduced he hi hm hout,
      and_self]
  rw [identitiesAreSplit_iff]
  constructor
  · intro hsplit e he hi hm
    exact (or_congr (hdegree e he hi hm).1 (hdegree e he hi hm).2).1
      (hsplit e (mem_kept hreduced he hm) hi)
  · intro hnarrow e het hi
    obtain ⟨he, hstay⟩ := (hreduced.elements e).1 het
    have hm := isMapSide_of_stays hi hstay
    exact (or_congr (hdegree e he hi hm).1 (hdegree e he hi hm).2).2 (hnarrow e he hi hm)

/-- Two identities in a row: the first joins two inputs and the second feeds two outputs. -/
def relay : FlowGraph :=
  assemble
    [.input "i1" "Record", .input "i2" "Record", .pseudo "x" "Record" .none,
      .pseudo "y" "Record" .none, .output "o1" "Record", .output "o2" "Record"]
    [(0, 2), (1, 2), (3, 4), (5, 6), (5, 7)]

theorem relay_wellFormed : relay.WellFormed :=
  assemble_wellFormed _ (by simp)

set_option maxRecDepth 10000 in
theorem relay_shared :
    relay.isLegal = true ∧ relay.normalize.1.identitiesAreSplit = false := by
  decide +kernel

set_option maxRecDepth 10000 in
theorem relay_not_narrow : relay.WellFormed ∧ ¬ relay.unreduced.HasNarrowMaps := by
  refine ⟨relay_wellFormed, fun hnarrow => ?_⟩
  have hsplit := (normalization_splits_identities_iff relay_wellFormed).2 hnarrow
  revert hsplit
  decide +kernel

end FlowGraph
end FlowPlan
