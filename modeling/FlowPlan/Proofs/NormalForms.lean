import FlowPlan.Proofs.ClosedReduceSides
import FlowPlan.Proofs.Inlining

/-!
What holds in every normal form, and what follows from a closed reduce side.

Of the obligations of the certificate three always hold: a normal form is flat, its identities are
map sides, and its stage heads read materialized data (`normalization_reduces`).  Where in addition
the reduce side is closed, no shuffle of the normal form diverges.
-/

namespace FlowPlan
namespace FlowGraph

variable {g : FlowGraph} {e x y : Element}

/-! ## Obligations that always hold -/

theorem normalize_isFlat (h : g.WellFormed) : g.normalize.1.isFlat = true := by
  have hflat := (flatten_wellFormed h).coherent
  exact ((normalize_rewrites hflat).induction (P := fun k => k.isFlat = true)
    (fun _ _ hk hs hkflat => hs.isFlat hk hkflat) hflat (flatten_isFlat g)).2

theorem normalize_identitiesAreMaps (h : g.WellFormed) :
    g.normalize.1.identitiesAreMaps = true := by
  have hk := (normalize_wellFormed h).coherent
  have hcollapsed := normalize_collapsed h
  refine List.all_eq_true.2 fun i hi => ?_
  obtain ⟨z, hz, hzi, rfl⟩ := mem_idsWhere.1 hi
  obtain ⟨hzu, hm⟩ := isMapSide_of_mem_normalize h hz hzi
  obtain ⟨a, b, hin, hout⟩ :=
    Element.ports_of_isPseudo (hk.shaped z hz) (isPseudo_of_isIdentity hzi)
  have hkept : ∀ {x}, x ∈ g.unreduced.elements → x.isBoundary = true →
      x ∈ g.normalize.1.elements := fun hx hb => (hcollapsed.elements _).2
    ⟨hx, fun hout => by simp [isBoundary_eq_false_of_isIdentity hout.1] at hb⟩
  refine (isMapBody_iff hk hz).2 ⟨?_, ?_,
    fun x hx hf => isStageBoundary_of_feeds_identity h hx hz hzi hf,
    fun y hy hf => isBoundary_of_identity_feeds h hz hy hzi hf⟩
  · obtain ⟨x, hx, hxs, u, hu, d, hd, hp⟩ := hm.supplied
    have hxb : x.isBoundary = true := by rw [Element.isBoundary, hxs, Bool.true_or]
    have hc := (incoming_kept_iff hcollapsed hzu hzi hm hin (u := u)).2
      ⟨x, hx, isIdentity_eq_false_of_isBoundary hxb, hu, d, hd, hp⟩
    exact ⟨x, hkept hx hxb, _, hc, hu, by rw [hin]; exact List.mem_singleton_self a⟩
  · obtain ⟨y, hy, hyb, u, hu, d, hd, hp⟩ := hm.supplies
    have hc := (outgoing_kept_iff hcollapsed hzu hzi hm hout (d := d)).2
      ⟨y, hy, isIdentity_eq_false_of_isBoundary hyb, hd, u, hu, hp⟩
    exact ⟨y, hkept hy hyb, _, hc, by rw [hout]; exact List.mem_singleton_self b, hd⟩

theorem headsReadMaterialized_iff (h : g.Coherent) :
    g.headsReadMaterialized = true ↔ ∀ x ∈ g.elements, ∀ y ∈ g.elements, y.isStageHead = true →
      g.Feeds x y → x.isStageBoundary = true := by
  rw [headsReadMaterialized, List.all_eq_true]
  constructor
  · intro hall x hx y hy hyh hf
    have hstage := (h.all_predecessors hy).1 (hall y.id (mem_idsWhere.2 ⟨y, hy, hyh, rfl⟩)) x hx hf
    rwa [h.isStageBoundary_eq hx] at hstage
  · intro hall i hi
    obtain ⟨y, hy, hyh, rfl⟩ := mem_idsWhere.1 hi
    refine (h.all_predecessors hy).2 fun x hx hf => ?_
    rw [h.isStageBoundary_eq hx]
    exact hall x hx y hy hyh hf

theorem isBoundary_eq_false_of_isStageHead (hx : x.isStageHead = true) : x.isBoundary = false := by
  rw [Element.isStageHead, Bool.and_eq_true, beq_iff_eq] at hx
  unfold Element.operator? ElementKind.operator? at hx
  cases hk : x.kind <;> simp_all [Element.isBoundary, Element.isStageBoundary, Element.isInput,
    Element.isOutput, Element.isCheckpoint, Element.isPseudo, Element.isShuffleBoundary,
    ElementKind.isInput, ElementKind.isOutput, ElementKind.isPseudo]

theorem mem_withCheckpoints_of_normalize (h : g.WellFormed) (hx : x ∈ g.normalize.1.elements)
    (hi : x.isIdentity = false) : x ∈ g.withCheckpoints.elements :=
  ((normalize_sameWays h).mem x hi).1 hx

/-- The identities in front of stage heads are gone in the end. -/
theorem normalize_headsReadMaterialized (h : g.WellFormed) :
    g.normalize.1.headsReadMaterialized = true := by
  have hflat := (flatten_wellFormed h).coherent
  refine (headsReadMaterialized_iff (normalize_wellFormed h).coherent).2 fun x hx y hy hyh hf => ?_
  have hyi := (of_isStageHead hyh).1
  have hxi := isIdentity_eq_false_of_feeds h hx hy (isBoundary_eq_false_of_isStageHead hyh) hf
  have hxc := mem_withCheckpoints_of_normalize h hx hxi
  have hyc := mem_withCheckpoints_of_normalize h hy hyi
  have hsupplies : g.withCheckpoints.Supplies x y :=
    ((normalize_sameWays h).leadsTo _ (fun _ hz => hz) x hxc y hyc hxi hyi).1 hf.leadsTo
  rcases LeadsTo.cases_last hsupplies with hfc | ⟨z, hz, hzi, -, hfz⟩
  · exact isStageBoundary_of_feeds_head hflat hxc hyc hyh hfc
  · have hstage := isStageBoundary_of_feeds_head hflat hz hyc hyh hfz
    rw [isStageBoundary_eq_false_of_isIdentity hzi] at hstage
    cases hstage

/-- What is left of parts and identities in a normal form: nothing of the first, and of the second
those between a stage boundary on one side and boundaries on the other. -/
structure IsReduced (k : FlowGraph) : Prop where
  flat : ∀ x ∈ k.elements, x.isFlowPart = false
  fed : ∀ i ∈ k.identities,
    k.predecessors i ≠ [] ∧ ∀ p ∈ k.predecessors i, k.isStageBoundary p = true
  feeding : ∀ i ∈ k.identities, k.successors i ≠ [] ∧ ∀ s ∈ k.successors i, k.isBoundary s = true
  heads : ∀ i ∈ k.idsWhere (·.isStageHead), ∀ p ∈ k.predecessors i, k.isStageBoundary p = true

theorem isMapBody_eq_true_iff {i : ElementId} : g.isMapBody i = true ↔
    (g.predecessors i ≠ [] ∧ ∀ p ∈ g.predecessors i, g.isStageBoundary p = true) ∧
      g.successors i ≠ [] ∧ ∀ s ∈ g.successors i, g.isBoundary s = true := by
  simp only [isMapBody, Bool.and_eq_true, Bool.not_eq_true', List.all_eq_true,
    List.isEmpty_eq_false_iff]
  tauto

/-- The three obligations, as the certificate checks them. -/
theorem isReduced_iff : g.IsReduced ↔
    g.isFlat = true ∧ g.identitiesAreMaps = true ∧ g.headsReadMaterialized = true := by
  rw [isFlat_iff, identitiesAreMaps, List.all_eq_true, headsReadMaterialized, List.all_eq_true]
  constructor
  · intro h
    exact ⟨h.flat, fun i hi => isMapBody_eq_true_iff.2 ⟨h.fed i hi, h.feeding i hi⟩,
      fun i hi => List.all_eq_true.2 (h.heads i hi)⟩
  · rintro ⟨hflat, hmaps, hheads⟩
    exact ⟨hflat, fun i hi => (isMapBody_eq_true_iff.1 (hmaps i hi)).1,
      fun i hi => (isMapBody_eq_true_iff.1 (hmaps i hi)).2,
      fun i hi => List.all_eq_true.1 (hheads i hi)⟩

/-- Legal or not, a graph comes out reduced. -/
theorem normalization_reduces (h : g.WellFormed) : g.normalize.1.IsReduced :=
  isReduced_iff.2
    ⟨normalize_isFlat h, normalize_identitiesAreMaps h, normalize_headsReadMaterialized h⟩

/-- A part in a part, fed by its own output; a stage head that reads materialized data through an
identity; an identity on a loop of its own; an operator that nothing feeds; and a shuffle that reads
an input. -/
def tangle : FlowGraph :=
  let work (name : String) (boundary : Boundary) : ElementDecl :=
    .operator name { name, kind := "update", resources := [] } [.plain "in" "Record"]
      [.plain "out" "Record"] boundary
  let inside : FlowGraph :=
    assemble [.input "a" "Record", work "f" .none, .output "z" "Record"] [(0, 1), (2, 3)]
  let around : FlowGraph :=
    assemble [.input "b" "Record", .flowPart "inside" inside, .output "y" "Record"]
      [(0, 1), (2, 3)]
  assemble
    [.input "src" "Record", .flowPart "around" around, .pseudo "relay" "Record" .none,
      work "head" .stage, .pseudo "loop" "Record" .none, work "idle" .none,
      .output "dst" "Record", work "sum" .shuffle]
    [(0, 1), (2, 1), (2, 3), (0, 3), (4, 5), (6, 11), (8, 7), (10, 11), (0, 12), (13, 11)]

set_option maxRecDepth 10000 in
/-- The stage head is left, and an identity between the input and the shuffle. -/
theorem tangle_isReduced :
    tangle.WellFormed ∧ tangle.isLegal = false ∧ tangle.normalize.1.IsReduced ∧
      tangle.normalize.1.idsWhere (·.isStageHead) = [3] ∧
      ∃ i, tangle.normalize.1.identities = [i] ∧ tangle.normalize.1.predecessors i = [0] ∧
        tangle.normalize.1.successors i = [7] := by
  have hwf : tangle.WellFormed := assemble_wellFormed _ (by simp [assemble_wellFormed])
  exact ⟨hwf, by decide +kernel, normalization_reduces hwf, by decide +kernel, 15,
    by decide +kernel, by decide +kernel, by decide +kernel⟩

/-! ## Shuffles that do not diverge -/

/-- A way in the normal form that passes no boundary was there before identities were dealt with. -/
theorem leadsTo_withCheckpoints (h : g.WellFormed) (hx : x ∈ g.normalize.1.elements)
    (hy : y ∈ g.normalize.1.elements) (hxi : x.isIdentity = false) (hyi : y.isIdentity = false) :
    g.normalize.1.LeadsTo (·.isBoundary = false) x y ↔
      g.withCheckpoints.LeadsTo (·.isBoundary = false) x y :=
  (normalize_sameWays h).leadsTo _ (fun _ => isBoundary_eq_false_of_isIdentity) x
    (mem_withCheckpoints_of_normalize h hx hxi) y (mem_withCheckpoints_of_normalize h hy hyi)
    hxi hyi

/-- A shuffle that leads into the region of another one is that one. -/
theorem eq_of_inRegion (h : g.Coherent) (he : e ∈ g.elements) (hs : e.isShuffleBoundary = true)
    (hdiv : g.diverges e.id = false) (hx : x ∈ g.elements) (hxs : x.isShuffleBoundary = true)
    (hy : y ∈ g.elements) (hyb : y.isBoundary = false) (hin : g.InRegion e y)
    (hlead : g.LeadsTo (·.isBoundary = false) x y) : x = e := by
  obtain ⟨u, hu, d, hd, hp⟩ := hlead
  have hback : ∀ {u d}, g.Carries (·.isBoundary = false) u d → d ∈ y.inputIds →
      ∀ a ∈ g.elements, u ∈ a.outputIds → g.InRegion e a := by
    intro u d hp hd
    induction hp with
    | direct hc =>
      intro a ha hu
      exact inRegion_of_feeds h he hdiv hy hin (ne_of_isBoundary_eq_false hyb hs) ha
        ⟨_, hc, hu, hd⟩
    | through first hz hb hzin hzout _ ih =>
      intro a ha hu
      exact inRegion_of_feeds h he hdiv hz (ih hd _ hz hzout) (ne_of_isBoundary_eq_false hb hs)
        ha ⟨_, first, hu, hzin⟩
  refine (hback hp hd x hx hu).resolve_right fun hb => ?_
  rw [isShuffleBoundary_eq_false_of_isBoundary_eq_false hb.1] at hxs
  cases hxs

section Region

variable (h : g.WellFormed) (he : e ∈ g.normalize.1.elements) (hs : e.isShuffleBoundary = true)
  (hx : x ∈ g.normalize.1.elements) (hin : g.normalize.1.InRegion e x)

include h he hs hx hin

/-- A shuffle that a region of the normal form feeds was fed by the region in the flat graph, where
the shuffle of the region diverged for it and was cut off. -/
theorem eq_of_region_feeds (hy : y ∈ g.normalize.1.elements) (hys : y.isShuffleBoundary = true)
    (hf : g.normalize.1.Feeds x y) : y = e := by
  by_contra hne
  have hflat := (flatten_wellFormed h).coherent
  have hcheck := insertCheckpoints_checkpointed hflat
  have hei := isIdentity_eq_false_of_isShuffleBoundary hs
  have heg := hcheck.mem_old (mem_withCheckpoints_of_normalize h he hei)
    (isCheckpoint_eq_false_of_isShuffleBoundary hs)
  have hlead : g.normalize.1.LeadsTo (·.isBoundary = false) e y := by
    rcases hin with rfl | ⟨hxb, hex⟩
    · exact hf.leadsTo
    · exact hex.tail hx hxb hf
  have hyi := isIdentity_eq_false_of_isShuffleBoundary hys
  have hyc := mem_withCheckpoints_of_normalize h hy hyi
  have hyk := isCheckpoint_eq_false_of_isShuffleBoundary hys
  have hleadc := (leadsTo_withCheckpoints h he hy hei hyi).1 hlead
  have hstays := diverges_eq_false_of_leadsTo hflat heg hs hyc hyk hleadc
  have hleadg := hcheck.leadsTo_of hflat
    (fun _ => isCheckpoint_eq_false_of_isBoundary_eq_false) heg (hcheck.mem_old hyc hyk) hleadc
  have hdiverges : g.flatten.1.diverges e.id = true := by
    refine (diverges_iff hflat heg).2 ?_
    rcases hleadg.cases_last with hf | ⟨z, hz, hzb, hez, hf⟩
    · exact ⟨e, heg, .inl rfl, .inl ⟨y, hcheck.mem_old hyc hyk, hys, hne, hf⟩⟩
    · exact ⟨z, hz, .inr ⟨hzb, hez⟩, .inl ⟨y, hcheck.mem_old hyc hyk, hys, hne, hf⟩⟩
  rw [hstays] at hdiverges
  cases hdiverges

/-- What feeds a region of the normal form is behind a shuffle if the reduce side is closed, and
this can only be the shuffle of the region. -/
theorem inRegion_of_reduceClosed (hclosed : g.normalize.1.ReduceClosed) (hxe : x ≠ e)
    (hp : p ∈ g.normalize.1.elements) (hf : g.normalize.1.Feeds p x) :
    g.normalize.1.InRegion e p := by
  have hflat := (flatten_wellFormed h).coherent
  have hcheck := insertCheckpoints_checkpointed hflat
  have hei := isIdentity_eq_false_of_isShuffleBoundary hs
  have heg := hcheck.mem_old (mem_withCheckpoints_of_normalize h he hei)
    (isCheckpoint_eq_false_of_isShuffleBoundary hs)
  obtain ⟨hxb, hex⟩ := hin.resolve_left hxe
  have hxi := isIdentity_eq_false_of_isBehind h hx ⟨hxb, e, he, hs, hex⟩
  have hxc := mem_withCheckpoints_of_normalize h hx hxi
  have hexc := (leadsTo_withCheckpoints h he hx hei hxi).1 hex
  have hstays := diverges_eq_false_of_leadsTo hflat heg hs hxc
    (isCheckpoint_eq_false_of_isBoundary_eq_false hxb) hexc
  obtain ⟨hxg, hinner, hexg⟩ := isInner_of_leadsTo hflat heg hs hxc hxb hexc
  have hpi := isIdentity_eq_false_of_feeds h hp hx hxb hf
  have hpc := mem_withCheckpoints_of_normalize h hp hpi
  have hpx := ((normalize_sameWays h).leadsTo _ (fun _ hz => hz) p hpc x hxc hpi hxi).1 hf.leadsTo
  obtain ⟨hpg, hpin, -⟩ := inRegion_of_supplies hflat heg hs hstays hxg hinner
    (.inr ⟨hxb, hexg.mono fun _ hz => hz.1⟩) hpc hpx
  by_cases hpe : p = e
  · exact .inl hpe
  · have hpb := (hpin.resolve_left hpe).1
    have hpbehind : g.normalize.1.IsBehind p := by
      refine (hclosed x hx ⟨hxb, e, he, hs, hex⟩ p hp hf).resolve_left fun hps => ?_
      rw [isShuffleBoundary_eq_false_of_isBoundary_eq_false hpb] at hps
      cases hps
    obtain ⟨e', he', hs', -, hpinner, hway⟩ := exists_shuffle_of_isBehind hflat hpc
      ((isBehind_iff (normalize_sameWays h) hpc hpi).1 hpbehind)
    obtain rfl := eq_of_inRegion hflat heg hs hstays he' hs' hpg hpb hpin
      (hway.mono fun _ hz => hz.1)
    exact .inr ⟨hpb, (leadsTo_withCheckpoints h he hp hei hpi).2
      (leadsTo_insertCheckpoints hflat heg hs hstays hpg hpinner hway)⟩

end Region

/-- With a closed reduce side no shuffle of the normal form diverges. -/
theorem normalize_diverges_eq_false (h : g.WellFormed) (hclosed : g.normalize.1.ReduceClosed)
    (he : e ∈ g.normalize.1.elements) (hs : e.isShuffleBoundary = true) :
    g.normalize.1.diverges e.id = false := by
  rw [← Bool.not_eq_true, diverges_iff (normalize_wellFormed h).coherent he]
  intro hdiv
  obtain ⟨x, hx, hin, ⟨y, hy, hys, hne, hf⟩ | ⟨hxe, p, hp, hf, hout⟩⟩ := hdiv
  · exact hne (eq_of_region_feeds h he hs hx hin hy hys hf)
  · exact hout (inRegion_of_reduceClosed h he hs hx hin hclosed hxe hp hf)

end FlowGraph
end FlowPlan
