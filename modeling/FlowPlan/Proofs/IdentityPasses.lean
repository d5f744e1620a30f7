import FlowPlan.Proofs.CheckpointCuts
import FlowPlan.Proofs.SharedIdentities

/-!
What the passes behind the checkpoints leave alone.

These passes put identities in and take them out.  So the graph with its checkpoints and its normal
form have the other elements in common, and the paths between these as far as identities may lie on
them.  What is around the identities that stay is known from `normalize_collapsed`: they take
materialized records and hand them to boundaries.
-/

namespace FlowPlan
namespace FlowGraph

variable {g k l : FlowGraph} {x y z : Element}

/-! ## Paths up to identities -/

/-- Two graphs that differ in identities only. -/
structure SameWays (g k : FlowGraph) : Prop where
  mem : ∀ x, x.isIdentity = false → (x ∈ k.elements ↔ x ∈ g.elements)
  leadsTo : ∀ via : Element → Prop, (∀ z, z.isIdentity = true → via z) →
    ∀ x ∈ g.elements, ∀ y ∈ g.elements, x.isIdentity = false → y.isIdentity = false →
      (k.LeadsTo via x y ↔ g.LeadsTo via x y)

namespace SameWays

theorem refl (g : FlowGraph) : SameWays g g :=
  ⟨fun _ _ => Iff.rfl, fun _ _ _ _ _ _ _ _ => Iff.rfl⟩

theorem trans (hgk : SameWays g k) (hkl : SameWays k l) : SameWays g l where
  mem := fun x hx => (hkl.mem x hx).trans (hgk.mem x hx)
  leadsTo := fun via hvia x hx y hy hxi hyi =>
    (hkl.leadsTo via hvia x ((hgk.mem x hxi).2 hx) y ((hgk.mem y hyi).2 hy) hxi hyi).trans
      (hgk.leadsTo via hvia x hx y hy hxi hyi)

theorem of_reach (h : g.Coherent) (hk : k.Coherent)
    (mem : ∀ x, x.isIdentity = false → (x ∈ k.elements ↔ x ∈ g.elements))
    (hreach : ∀ via : Element → Prop, (∀ z, z.isIdentity = true → via z) →
      ∀ x ∈ g.elements, ∀ y ∈ g.elements, x.isIdentity = false → y.isIdentity = false →
        ∀ u ∈ x.portIds, ∀ d ∈ y.portIds, (k.Reach via u d ↔ g.Reach via u d)) :
    SameWays g k := by
  refine ⟨mem, fun via hvia x hx y hy hxi hyi => ?_⟩
  refine exists_congr fun u => and_congr_right fun hu => exists_congr fun d =>
    and_congr_right fun hd => ?_
  rw [carries_iff_reach h (isOutputPort_iff.2 ⟨x, hx, hu⟩) (isInputPort_iff.2 ⟨y, hy, hd⟩),
    carries_iff_reach hk (isOutputPort_iff.2 ⟨x, (mem x hxi).2 hx, hu⟩)
      (isInputPort_iff.2 ⟨y, (mem y hyi).2 hy, hd⟩)]
  exact hreach via hvia x hx y hy hxi hyi u (Element.mem_portIds.2 (.inr hu)) d
    (Element.mem_portIds.2 (.inl hd))

/-! ## One change -/

theorem insertPseudoOn (h : g.Coherent) {c : Connection} (hc : c ∈ g.connections) :
    SameWays g (g.insertPseudoOn c .none) := by
  refine .of_reach h (insertPseudoOn_coherent h c .none) (fun x hx => ?_) ?_
  · rw [elements_insertPseudoOn, List.mem_append, List.mem_singleton]
    refine or_iff_left ?_
    rintro rfl
    cases hx
  · intro via hvia x hx y hy _ _ u hu d hd
    exact reach_insertPseudoOn h hc (hvia _ rfl) (h.port_lt hx hu) (h.port_lt hy hd)

section TakeOut

variable {e : Element}

theorem ne_of_isIdentity (hi : e.isIdentity = true) (hx : x.isIdentity = false) : x ≠ e := by
  rintro rfl
  rw [hi] at hx
  cases hx

theorem splitIdentity (h : g.Coherent) (he : e ∈ g.elements) (hi : e.isIdentity = true) :
    SameWays g (g.splitIdentity e.id) := by
  obtain ⟨a, b, hin, hout⟩ := Element.ports_of_isPseudo (h.shaped e he) (isPseudo_of_isIdentity hi)
  refine .of_reach h (splitIdentity_coherent h he) (fun x hx => ?_) ?_
  · rw [mem_elements_splitIdentity h he hx]
    exact and_iff_left (ne_of_isIdentity hi hx)
  · intro via hvia x hx y hy hxi hyi u hu d hd
    exact reach_splitIdentity h he hi hvia hin hout
      (h.port_ne he hin hout hx (ne_of_isIdentity hi hxi) hu)
      (h.port_ne he hin hout hy (ne_of_isIdentity hi hyi) hd) (h.port_lt hx hu) (h.port_lt hy hd)

theorem bypass (h : g.Coherent) (he : e ∈ g.elements) (hi : e.isIdentity = true) :
    SameWays g (g.bypass e.id) := by
  obtain ⟨a, b, hin, hout⟩ := Element.ports_of_isPseudo (h.shaped e he) (isPseudo_of_isIdentity hi)
  refine .of_reach h (bypass_coherent h he) (fun x hx => ?_) ?_
  · rw [mem_elements_bypass h he]
    exact and_iff_left (ne_of_isIdentity hi hx)
  · intro via hvia x hx y hy hxi hyi u hu d hd
    exact reach_bypass h (hvia e hi) he hin hout
      (h.port_ne he hin hout hx (ne_of_isIdentity hi hxi) hu)
      (h.port_ne he hin hout hy (ne_of_isIdentity hi hyi) hd)

end TakeOut

end SameWays

/-! ## The passes -/

theorem insertIdentities_sameWays (h : g.Coherent) : SameWays g g.insertIdentities.1 := by
  refine (foldl_insertOn_induction (s := (g, 0)) identityOn_fst (P := fun t _ => SameWays g t) ?_ h
    h.connectedOnce (fun _ hc => hc) (.refl g)).2
  intro s c rest hs hc hways
  unfold identityOn
  split
  · exact hways.trans (.insertPseudoOn hs hc)
  · exact hways

theorem splitIdentities_sameWays (h : g.Coherent) : SameWays g g.splitIdentities.1 := by
  refine (foldl_identities_induction (P := fun t => SameWays g t) ?_ h (.refl g)).2
  intro s e he hs hi hways
  unfold splitIfShared
  split
  · exact ⟨hs, hways, fun x hx _ => hx⟩
  · exact ⟨splitIdentity_coherent hs he, hways.trans (.splitIdentity hs he hi),
      fun x hx hne => mem_splitIdentity_of_mem hs he hx hne⟩

theorem reduceIdentities_sameWays (h : g.Coherent) : SameWays g g.reduceIdentities.1 := by
  refine (foldl_identities_induction (P := fun t => SameWays g t) ?_ h (.refl g)).2
  intro s e he hs hi hways
  unfold bypassUnlessMap
  split
  · exact ⟨hs, hways, fun x hx _ => hx⟩
  · exact ⟨bypass_coherent hs he, hways.trans (.bypass hs he hi),
      fun x hx hne => (mem_elements_bypass hs he).2 ⟨hx, hne⟩⟩

/-! ## The normal form -/

/-- The graph with its checkpoints, before identities are dealt with. -/
def withCheckpoints (g : FlowGraph) : FlowGraph := g.flatten.1.insertCheckpoints.1

theorem withCheckpoints_coherent (h : g.WellFormed) : g.withCheckpoints.Coherent :=
  (insertCheckpoints_rewrites (flatten_wellFormed h).coherent).coherent
    (flatten_wellFormed h).coherent

theorem normalize_sameWays (h : g.WellFormed) : SameWays g.withCheckpoints g.normalize.1 := by
  have hcheck := withCheckpoints_coherent h
  have hmap := (insertIdentities_rewrites hcheck).coherent hcheck
  have hsplit := (splitIdentities_rewrites hmap).coherent hmap
  rw [normalize_eq]
  exact ((insertIdentities_sameWays hcheck).trans (splitIdentities_sameWays hmap)).trans
    (reduceIdentities_sameWays hsplit)

/-- An identity of the normal form is a map side. -/
theorem isMapSide_of_mem_normalize (h : g.WellFormed) (hz : z ∈ g.normalize.1.elements)
    (hi : z.isIdentity = true) : z ∈ g.unreduced.elements ∧ g.unreduced.IsMapSide z := by
  obtain ⟨hzu, hstay⟩ := ((normalize_collapsed h).elements z).1 hz
  exact ⟨hzu, isMapSide_of_stays hi hstay⟩

theorem supplies_of_feeds_normalize (h : g.WellFormed) (hx : x ∈ g.normalize.1.elements)
    (hy : y ∈ g.normalize.1.elements) (hf : g.normalize.1.Feeds x y) :
    g.unreduced.Supplies x y := by
  obtain ⟨u, hu, d, hd, hp⟩ := ((normalize_collapsed h).feeds_iff hx hy).1 hf
  exact ⟨u, hu, d, hd, hp.mono fun _ hz => hz.1⟩

/-- Identities of the normal form take materialized records. -/
theorem isStageBoundary_of_feeds_identity (h : g.WellFormed) (hx : x ∈ g.normalize.1.elements)
    (hz : z ∈ g.normalize.1.elements) (hi : z.isIdentity = true) (hf : g.normalize.1.Feeds x z) :
    x.isStageBoundary = true := by
  obtain ⟨hzu, hm⟩ := isMapSide_of_mem_normalize h hz hi
  have hs := supplies_of_feeds_normalize h hx hz hf
  refine (hm.before x (((normalize_collapsed h).elements x).1 hx).1 hs).resolve_right fun hxi => ?_
  obtain ⟨hxu, hmx⟩ := isMapSide_of_mem_normalize h hx hxi.1
  exact hmx.not_supplies hxu hzu hxi.1 hi hm hs

/-- Identities of the normal form feed boundaries. -/
theorem isBoundary_of_identity_feeds (h : g.WellFormed) (hz : z ∈ g.normalize.1.elements)
    (hy : y ∈ g.normalize.1.elements) (hi : z.isIdentity = true) (hf : g.normalize.1.Feeds z y) :
    y.isBoundary = true := by
  obtain ⟨hzu, hm⟩ := isMapSide_of_mem_normalize h hz hi
  have hs := supplies_of_feeds_normalize h hz hy hf
  refine (hm.behind y (((normalize_collapsed h).elements y).1 hy).1 hs).resolve_right fun hyi => ?_
  obtain ⟨hyu, hmy⟩ := isMapSide_of_mem_normalize h hy hyi.1
  exact hm.not_supplies hzu hyu hi hyi.1 hmy hs

end FlowGraph
end FlowPlan
