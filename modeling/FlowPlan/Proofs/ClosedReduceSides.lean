import FlowPlan.Proofs.IdentityPasses

/-!
When normalization closes the reduce side.

A shuffle diverges when what follows it merges other data, and then a checkpoint behind the shuffle
keeps its stage short.  That is decided before checkpoints are put in front of stage heads.  Such a
checkpoint may cut off a part of what follows a shuffle, and where this part runs back into the rest
it brings data that did not come through the shuffle.  The main statement is
`normalization_closes_reduce_sides_iff`: on flat graphs without such detours, and on no others, the
normal form has a closed reduce side.  `fork` is a legal graph with a detour.
-/

namespace FlowPlan
namespace FlowGraph

variable {g k : FlowGraph} {e x y z : Element}

/-! ## Detours -/

/-- No boundary, and nothing that is cut off from what feeds it. -/
def IsInner (z : Element) : Prop := z.isBoundary = false ∧ z.isStageHead = false

/-- A shuffle that does not diverge and a stage head lead to the same element, the shuffle without
passing a stage head. -/
def HasDetour (g : FlowGraph) : Prop :=
  ∃ e ∈ g.elements, e.isShuffleBoundary = true ∧ g.diverges e.id = false ∧
    ∃ h ∈ g.elements, h.isStageHead = true ∧
      ∃ y ∈ g.elements, IsInner y ∧ y.isIdentity = false ∧
        g.LeadsTo IsInner e y ∧ g.LeadsTo (·.isBoundary = false) h y

/-- An element behind a shuffle takes records, through identities at most, from an element that is
not on the reduce side. -/
def HasBreach (g : FlowGraph) : Prop :=
  ∃ y ∈ g.elements, y.isIdentity = false ∧ g.IsBehind y ∧
    ∃ x ∈ g.elements, x.isIdentity = false ∧ x.isShuffleBoundary = false ∧ ¬ g.IsBehind x ∧
      g.Supplies x y

/-! ## Breaches in the normal form -/

theorem isBehind_iff (hways : SameWays g k) (hy : y ∈ g.elements) (hi : y.isIdentity = false) :
    k.IsBehind y ↔ g.IsBehind y := by
  refine and_congr_right fun _ => exists_congr fun x => ?_
  constructor
  · intro hmem
    obtain ⟨hx, hs, hlead⟩ := hmem
    have hxi := isIdentity_eq_false_of_isShuffleBoundary hs
    have hxg := (hways.mem x hxi).1 hx
    exact ⟨hxg, hs, (hways.leadsTo _ (fun _ => isBoundary_eq_false_of_isIdentity) x hxg y hy hxi
      hi).1 hlead⟩
  · intro hmem
    obtain ⟨hx, hs, hlead⟩ := hmem
    have hxi := isIdentity_eq_false_of_isShuffleBoundary hs
    exact ⟨(hways.mem x hxi).2 hx, hs, (hways.leadsTo _ (fun _ => isBoundary_eq_false_of_isIdentity)
      x hx y hy hxi hi).2 hlead⟩

theorem hasBreach_iff (hways : SameWays g k) : k.HasBreach ↔ g.HasBreach := by
  constructor
  · intro hbreach
    obtain ⟨y, hy, hyi, hbehind, x, hx, hxi, hxs, hnot, hsupplies⟩ := hbreach
    have hyg := (hways.mem y hyi).1 hy
    have hxg := (hways.mem x hxi).1 hx
    exact ⟨y, hyg, hyi, (isBehind_iff hways hyg hyi).1 hbehind, x, hxg, hxi, hxs,
      fun hb => hnot ((isBehind_iff hways hxg hxi).2 hb),
      (hways.leadsTo _ (fun _ hz => hz) x hxg y hyg hxi hyi).1 hsupplies⟩
  · intro hbreach
    obtain ⟨y, hy, hyi, hbehind, x, hx, hxi, hxs, hnot, hsupplies⟩ := hbreach
    exact ⟨y, (hways.mem y hyi).2 hy, hyi, (isBehind_iff hways hy hyi).2 hbehind, x,
      (hways.mem x hxi).2 hx, hxi, hxs, fun hb => hnot ((isBehind_iff hways hx hxi).1 hb),
      (hways.leadsTo _ (fun _ hz => hz) x hx y hy hxi hyi).2 hsupplies⟩

/-- What is behind a shuffle is fed by the shuffle or by something behind it. -/
theorem IsBehind.exists_feeds (h : g.IsBehind y) :
    ∃ x ∈ g.elements, g.Feeds x y ∧ (x.isShuffleBoundary = true ∨ x.isBoundary = false) := by
  obtain ⟨-, x, hx, hs, hlead⟩ := h
  rcases hlead.cases_last with hf | ⟨z, hz, hb, -, hf⟩
  · exact ⟨x, hx, hf, .inl hs⟩
  · exact ⟨z, hz, hf, .inr hb⟩

theorem isStageBoundary_eq_false (h : g.Coherent) (hx : x ∈ g.elements)
    (hor : x.isShuffleBoundary = true ∨ x.isBoundary = false) : x.isStageBoundary = false := by
  rcases hor with hs | hb
  · rw [← Bool.not_eq_true]
    intro hstage
    rw [h.isShuffleBoundary_eq_false hx hstage] at hs
    cases hs
  · rw [Element.isBoundary, Bool.or_eq_false_iff] at hb
    exact hb.1

theorem isIdentity_eq_false_of_feeds (h : g.WellFormed) (hx : x ∈ g.normalize.1.elements)
    (hy : y ∈ g.normalize.1.elements) (hyb : y.isBoundary = false)
    (hf : g.normalize.1.Feeds x y) : x.isIdentity = false := by
  rw [← Bool.not_eq_true]
  intro hi
  rw [isBoundary_of_identity_feeds h hx hy hi hf] at hyb
  cases hyb

theorem isIdentity_eq_false_of_isBehind (h : g.WellFormed) (hy : y ∈ g.normalize.1.elements)
    (hbehind : g.normalize.1.IsBehind y) : y.isIdentity = false := by
  rw [← Bool.not_eq_true]
  intro hi
  obtain ⟨x, hx, hf, hor⟩ := hbehind.exists_feeds
  have hstage := isStageBoundary_of_feeds_identity h hx hy hi hf
  rw [isStageBoundary_eq_false (normalize_wellFormed h).coherent hx hor] at hstage
  cases hstage

/-- Identities of the normal form are not behind a shuffle, nor do they feed what is. -/
theorem reduceClosed_normalize_iff (h : g.WellFormed) :
    g.normalize.1.ReduceClosed ↔ ¬ g.normalize.1.HasBreach := by
  constructor
  · intro hclosed hbreach
    obtain ⟨y, hy, -, hbehind, x, hx, -, hxs, hnot, hsupplies⟩ := hbreach
    rcases LeadsTo.cases_last hsupplies with hf | ⟨z, hz, hi, -, hf⟩
    · rcases hclosed y hy hbehind x hx hf with hs | hb
      · rw [hxs] at hs
        cases hs
      · exact hnot hb
    · rw [isIdentity_eq_false_of_feeds h hz hy hbehind.1 hf] at hi
      cases hi
  · intro hno y hy hbehind x hx hf
    have hyi := isIdentity_eq_false_of_isBehind h hy hbehind
    have hxi := isIdentity_eq_false_of_feeds h hx hy hbehind.1 hf
    by_contra hor
    rw [not_or, Bool.not_eq_true] at hor
    exact hno ⟨y, hy, hyi, hbehind, x, hx, hxi, hor.1, hor.2, hf.leadsTo⟩

/-! ## From a breach to a detour -/

section Checkpoints

variable (h : g.Coherent)

include h

/-- Past the checkpoints a path from what is not materialized to what is no boundary meets no stage
head. -/
theorem isInner_of_carries {u d : PortId}
    (hp : g.insertCheckpoints.1.Carries (·.isBoundary = false) u d)
    (hx : x ∈ g.insertCheckpoints.1.elements) (hu : u ∈ x.outputIds)
    (hloose : x.isStageBoundary = false) (hy : y ∈ g.insertCheckpoints.1.elements)
    (hd : d ∈ y.inputIds) :
    y.isStageHead = false ∧ g.insertCheckpoints.1.Carries IsInner u d := by
  have hk := (insertCheckpoints_checkpointed h).coherent
  have hnot : ∀ {a b : Element}, a ∈ g.insertCheckpoints.1.elements →
      b ∈ g.insertCheckpoints.1.elements → a.isStageBoundary = false →
        g.insertCheckpoints.1.Feeds a b → b.isStageHead = false := by
    intro a b ha hb hloose hf
    rw [← Bool.not_eq_true]
    intro hhead
    rw [isStageBoundary_of_feeds_head h ha hb hhead hf] at hloose
    cases hloose
  induction hp generalizing x with
  | direct hc => exact ⟨hnot hx hy hloose ⟨_, hc, hu, hd⟩, .direct hc⟩
  | through first he hb hin hout _ ih =>
    obtain ⟨hhead, hrest⟩ := ih he hout (isStageBoundary_eq_false hk he (.inr hb)) hd
    exact ⟨hhead, .through first he ⟨hb, hnot hx he hloose ⟨_, first, hu, hin⟩⟩ hin hout hrest⟩

/-- Nothing but checkpoints can be reached from a diverging shuffle. -/
theorem diverges_eq_false_of_leadsTo (he : e ∈ g.elements) (hs : e.isShuffleBoundary = true)
    (hy : y ∈ g.insertCheckpoints.1.elements) (hyc : y.isCheckpoint = false)
    (hlead : g.insertCheckpoints.1.LeadsTo (·.isBoundary = false) e y) :
    g.diverges e.id = false := by
  rw [← Bool.not_eq_true]
  intro hd
  rcases hlead.cases_first with hf | ⟨z, hz, hzb, hf, -⟩
  · rw [isCheckpoint_of_diverges_feeds h he hs hd hy hf] at hyc
    cases hyc
  · have hcheck := isCheckpoint_of_diverges_feeds h he hs hd hz hf
    rw [isCheckpoint_eq_false_of_isBoundary_eq_false hzb] at hcheck
    cases hcheck

/-- What a shuffle leads to past the checkpoints it led to before, and no stage head is on the
way. -/
theorem isInner_of_leadsTo (he : e ∈ g.elements) (hs : e.isShuffleBoundary = true)
    (hy : y ∈ g.insertCheckpoints.1.elements) (hyb : y.isBoundary = false)
    (hlead : g.insertCheckpoints.1.LeadsTo (·.isBoundary = false) e y) :
    y ∈ g.elements ∧ IsInner y ∧ g.LeadsTo IsInner e y := by
  have hk := insertCheckpoints_checkpointed h
  have hyg := hk.mem_old hy (isCheckpoint_eq_false_of_isBoundary_eq_false hyb)
  obtain ⟨u, hu, d, hdy, hp⟩ := hlead
  have hloose := isStageBoundary_eq_false h he (.inl hs)
  obtain ⟨hhead, hinner⟩ := isInner_of_carries h hp (hk.old e he) hu hloose hy hdy
  exact ⟨hyg, ⟨hyb, hhead⟩, hk.leadsTo_of h
    (fun _ hz => isCheckpoint_eq_false_of_isBoundary_eq_false hz.1) he hyg ⟨u, hu, d, hdy, hinner⟩⟩

/-- What is behind a shuffle past the checkpoints is in the region of a shuffle that does not
diverge. -/
theorem exists_shuffle_of_isBehind (hy : y ∈ g.insertCheckpoints.1.elements)
    (hbehind : g.insertCheckpoints.1.IsBehind y) :
    ∃ e ∈ g.elements, e.isShuffleBoundary = true ∧ g.diverges e.id = false ∧ IsInner y ∧
      g.LeadsTo IsInner e y := by
  have hk := insertCheckpoints_checkpointed h
  obtain ⟨hyb, e, he, hs, hlead⟩ := hbehind
  have heg := hk.mem_old he (isCheckpoint_eq_false_of_isShuffleBoundary hs)
  obtain ⟨-, hinner, hway⟩ := isInner_of_leadsTo h heg hs hy hyb hlead
  exact ⟨e, heg, hs, diverges_eq_false_of_leadsTo h heg hs hy
    (isCheckpoint_eq_false_of_isBoundary_eq_false hyb) hlead, hinner, hway⟩

/-- What feeds the region of a shuffle that does not diverge belongs to it. -/
theorem inRegion_of_feeds (he : e ∈ g.elements) (hdiv : g.diverges e.id = false)
    (hy : y ∈ g.elements) (hin : g.InRegion e y) (hne : y ≠ e) (hx : x ∈ g.elements)
    (hf : g.Feeds x y) : g.InRegion e x := by
  by_contra hout
  have hd := (diverges_iff h he).2 ⟨y, hy, hin, .inr ⟨hne, x, hx, hf, hout⟩⟩
  rw [hdiv] at hd
  cases hd

/-- Past the checkpoints nothing else feeds the region either, unless at a stage head. -/
theorem inRegion_of_feeds_insertCheckpoints (he : e ∈ g.elements) (hs : e.isShuffleBoundary = true)
    (hdiv : g.diverges e.id = false) (hy : y ∈ g.elements) (hin : g.InRegion e y)
    (hinner : IsInner y) (hx : x ∈ g.insertCheckpoints.1.elements) {c : Connection}
    (hc : c ∈ g.insertCheckpoints.1.connections) (hsx : c.source ∈ x.outputIds)
    (hty : c.target ∈ y.inputIds) : x ∈ g.elements ∧ g.InRegion e x ∧ c ∈ g.connections := by
  have hk := insertCheckpoints_checkpointed h
  have hne := ne_of_isBoundary_eq_false hinner.1 hs
  have htlt := h.port_lt hy (Element.mem_portIds.2 (.inl hty))
  by_cases hslt : c.source < g.entry
  · have hxg := hk.mem_of_port_lt hx (Element.mem_portIds.2 (.inr hsx)) hslt
    have hcg := ((hk.kept c hslt htlt).1 hc).1
    exact ⟨hxg, inRegion_of_feeds h he hdiv hy hin hne hxg ⟨c, hcg, hsx, hty⟩, hcg⟩
  · -- A new checkpoint is behind a diverging shuffle, which would feed the region as well.
    obtain ⟨u, hu, ⟨a, ha, has, -, hd, hua, -⟩ | ⟨-, b, hb, hbh, -, htb⟩⟩ :=
      hk.behind c hc (Nat.not_lt.1 hslt)
    · have hina := inRegion_of_feeds h he hdiv hy hin hne ha ⟨_, hu, hua, hty⟩
      rcases hina with rfl | ⟨hab, -⟩
      · rw [hdiv] at hd
        cases hd
      · rw [isShuffleBoundary_eq_false_of_isBoundary_eq_false hab] at has
        cases has
    · obtain rfl := h.eq_of_input hb hy htb hty
      rw [hinner.2] at hbh
      cases hbh

/-- The elements that supply what is inside the region are in the region, and nothing is in front of
them that was not there before. -/
theorem inRegion_of_supplies (he : e ∈ g.elements) (hs : e.isShuffleBoundary = true)
    (hdiv : g.diverges e.id = false) (hy : y ∈ g.elements) (hinner : IsInner y)
    (hin : g.InRegion e y) (hx : x ∈ g.insertCheckpoints.1.elements)
    (hsupplies : g.insertCheckpoints.1.Supplies x y) :
    x ∈ g.elements ∧ g.InRegion e x ∧ g.Supplies x y := by
  obtain ⟨u, hu, d, hd, hp⟩ := hsupplies
  have hregion : x ∈ g.elements ∧ g.InRegion e x ∧ g.Carries (·.isIdentity = true) u d := by
    induction hp generalizing x with
    | direct hc =>
      obtain ⟨hxg, hin, hcg⟩ := inRegion_of_feeds_insertCheckpoints h he hs hdiv hy hin hinner hx hc
        hu hd
      exact ⟨hxg, hin, .direct hcg⟩
    | through first hz hi hzin hzout _ ih =>
      obtain ⟨hzg, hzregion, hrest⟩ := ih hz hzout hd
      obtain ⟨hxg, hin, hcg⟩ := inRegion_of_feeds_insertCheckpoints h he hs hdiv hzg hzregion
        ⟨isBoundary_eq_false_of_isIdentity hi, isStageHead_eq_false_of_isIdentity hi⟩ hx first hu
        hzin
      exact ⟨hxg, hin, .through hcg hzg hi hzin hzout hrest⟩
  exact ⟨hregion.1, hregion.2.1, u, hu, d, hd, hregion.2.2⟩

/-- A path in front of the checkpoints is there behind them, or passes a stage head. -/
theorem carries_or_exists_head {u d : PortId} (hp : g.Carries (·.isBoundary = false) u d)
    (hx : x ∈ g.elements) (hu : u ∈ x.outputIds)
    (hstays : x.isShuffleBoundary = true → g.diverges x.id = false) (hy : y ∈ g.elements)
    (hd : d ∈ y.inputIds) :
    g.insertCheckpoints.1.Carries (·.isBoundary = false) u d ∨
      ∃ z ∈ g.elements, z.isStageHead = true ∧
        (z = y ∨ g.LeadsTo (·.isBoundary = false) z y) := by
  have hk := insertCheckpoints_checkpointed h
  induction hp generalizing x with
  | direct hc =>
    by_cases hhead : y.isStageHead = true
    · exact .inr ⟨y, hy, hhead, .inl rfl⟩
    · rw [Bool.not_eq_true] at hhead
      exact .inl (.direct (mem_insertCheckpoints h hc hx hu hy hd hstays hhead))
  | @through u a b d z first hz hb hin hout hrest ih =>
    by_cases hhead : z.isStageHead = true
    · exact .inr ⟨z, hz, hhead, .inr ⟨b, hout, d, hd, hrest⟩⟩
    · rw [Bool.not_eq_true] at hhead
      have hzs := isShuffleBoundary_eq_false_of_isBoundary_eq_false hb
      have hnext := ih hz hout (fun hs => by rw [hzs] at hs; cases hs) hd
      refine hnext.imp_left fun hp => ?_
      exact .through (mem_insertCheckpoints h first hx hu hz hin hstays hhead) (hk.old z hz) hb hin
        hout hp

theorem hasDetour_of_hasBreach (hbreach : g.insertCheckpoints.1.HasBreach) : g.HasDetour := by
  have hk := insertCheckpoints_checkpointed h
  obtain ⟨y, hy, hyi, hbehind, x, hx, hxi, hxs, hnot, hsupplies⟩ := hbreach
  obtain ⟨e, he, hs, hdiv, hinner, hlead⟩ := exists_shuffle_of_isBehind h hy hbehind
  have hyg := hk.mem_old hy (isCheckpoint_eq_false_of_isBoundary_eq_false hinner.1)
  obtain ⟨hxg, hxin, hxy⟩ := inRegion_of_supplies h he hs hdiv hyg hinner
    (.inr ⟨hinner.1, hlead.mono fun _ hz => hz.1⟩) hx hsupplies
  obtain ⟨hxb, u, hu, d, hd, hp⟩ := hxin.resolve_left fun heq => by
    rw [heq, hs] at hxs
    cases hxs
  have hxy : g.LeadsTo (·.isBoundary = false) x y :=
    LeadsTo.mono (fun _ => isBoundary_eq_false_of_isIdentity) hxy
  -- The element itself is not behind the shuffle any more, so a stage head is on the way to it.
  rcases carries_or_exists_head h hp he hu (fun _ => hdiv) hxg hd with hp | ⟨z, hz, hhead, hor⟩
  · exact absurd ⟨hxb, e, hk.old e he, hs, u, hu, d, hd, hp⟩ hnot
  · refine ⟨e, he, hs, hdiv, z, hz, hhead, y, hyg, hinner, hyi, hlead, ?_⟩
    rcases hor with rfl | hzx
    · exact hxy
    · exact hzx.trans hxg hxb hxy

/-! ## From a detour to a breach -/

/-- The way from a shuffle that does not diverge is not cut up to the next stage head. -/
theorem leadsTo_insertCheckpoints (he : e ∈ g.elements) (hs : e.isShuffleBoundary = true)
    (hdiv : g.diverges e.id = false) (hy : y ∈ g.elements) (hinner : IsInner y)
    (hlead : g.LeadsTo IsInner e y) :
    g.insertCheckpoints.1.LeadsTo (·.isBoundary = false) e y := by
  have hk := insertCheckpoints_checkpointed h
  have hthere : g.insertCheckpoints.1.LeadsTo IsInner e y := by
    refine hk.leadsTo_to h (fun c hc a ha b hb hsa htb hon hto hcut => ?_) he hy hlead
    have hstays : a.isShuffleBoundary = true → g.diverges a.id = false := by
      intro has
      rcases hon with rfl | hina
      · exact hdiv
      · rw [isShuffleBoundary_eq_false_of_isBoundary_eq_false hina.1] at has
        cases has
    have hhead : b.isStageHead = false := by
      rcases hto with rfl | hinb
      · exact hinner.2
      · exact hinb.2
    have hkept := mem_insertCheckpoints h hc ha hsa hb htb hstays hhead
    exact ((hk.kept c (h.source_lt hc) (h.target_lt hc)).1 hkept).2 hcut
  exact hthere.mono fun _ hz => hz.1

/-- Behind the last stage head on a path nothing is cut. -/
theorem exists_head_leadsTo {u d : PortId} (hp : g.Carries (·.isBoundary = false) u d)
    (hx : x ∈ g.elements) (hu : u ∈ x.outputIds) (hxs : x.isShuffleBoundary = false)
    (hy : y ∈ g.elements) (hd : d ∈ y.inputIds) (hyh : y.isStageHead = false) :
    g.insertCheckpoints.1.Carries (·.isBoundary = false) u d ∨
      ∃ z ∈ g.elements, z.isStageHead = true ∧
        g.insertCheckpoints.1.LeadsTo (·.isBoundary = false) z y := by
  have hk := insertCheckpoints_checkpointed h
  have hstays : ∀ {x : Element}, x.isShuffleBoundary = false → x.isShuffleBoundary = true →
      g.diverges x.id = false := by
    intro x hno hs
    rw [hno] at hs
    cases hs
  induction hp generalizing x with
  | direct hc => exact .inl (.direct (mem_insertCheckpoints h hc hx hu hy hd (hstays hxs) hyh))
  | @through u a b d z first hz hb hin hout _ ih =>
    have hzs := isShuffleBoundary_eq_false_of_isBoundary_eq_false hb
    rcases ih hz hout hzs hd with hrest | hrest
    · by_cases hhead : z.isStageHead = true
      · exact .inr ⟨z, hz, hhead, b, hout, d, hd, hrest⟩
      · rw [Bool.not_eq_true] at hhead
        exact .inl (.through (mem_insertCheckpoints h first hx hu hz hin (hstays hxs) hhead)
          (hk.old z hz) hb hin hout hrest)
    · exact .inr hrest

end Checkpoints

/-- On a path to what is behind a shuffle from what is not, there is a first element behind one. -/
theorem hasBreach_of_leadsTo (hy : y ∈ g.elements) (hyi : y.isIdentity = false)
    (hbehind : g.IsBehind y) (hx : x ∈ g.elements) (hxi : x.isIdentity = false)
    (hxs : x.isShuffleBoundary = false) (hnot : ¬ g.IsBehind x)
    (hlead : g.LeadsTo (·.isBoundary = false) x y) : g.HasBreach := by
  -- The path is followed from a port that the element feeds through identities at most.
  have hfollow : ∀ {u d : PortId}, g.Carries (·.isBoundary = false) u d → d ∈ y.inputIds →
      ∀ x ∈ g.elements, x.isIdentity = false → x.isShuffleBoundary = false → ¬ g.IsBehind x →
        (∀ t, g.Carries (·.isIdentity = true) u t →
          ∃ w ∈ x.outputIds, g.Carries (·.isIdentity = true) w t) → g.HasBreach := by
    intro u d hp hd
    induction hp with
    | direct hc =>
      intro x hx hxi hxs hnot hfrom
      obtain ⟨w, hw, hway⟩ := hfrom _ (.direct hc)
      exact ⟨y, hy, hyi, hbehind, x, hx, hxi, hxs, hnot, w, hw, _, hd, hway⟩
    | @through u a b d z first hz hb hin hout _ ih =>
      intro x hx hxi hxs hnot hfrom
      by_cases hzi : z.isIdentity = true
      · exact ih hd x hx hxi hxs hnot fun t ht => hfrom t (.through first hz hzi hin hout ht)
      · rw [Bool.not_eq_true] at hzi
        by_cases hzb : g.IsBehind z
        · obtain ⟨w, hw, hway⟩ := hfrom _ (.direct first)
          exact ⟨z, hz, hzi, hzb, x, hx, hxi, hxs, hnot, w, hw, a, hin, hway⟩
        · have hzs := isShuffleBoundary_eq_false_of_isBoundary_eq_false hb
          exact ih hd z hz hzi hzs hzb fun t ht => ⟨b, hout, ht⟩
  obtain ⟨u, hu, d, hd, hp⟩ := hlead
  exact hfollow hp hd x hx hxi hxs hnot fun t ht => ⟨u, hu, ht⟩

theorem of_isStageHead (hx : x.isStageHead = true) :
    x.isIdentity = false ∧ x.isShuffleBoundary = false := by
  rw [Element.isStageHead, Bool.and_eq_true, beq_iff_eq] at hx
  rw [Element.isIdentity, Element.isShuffleBoundary, hx.2]
  exact ⟨Bool.and_false _, rfl⟩

theorem hasBreach_of_hasDetour (h : g.Coherent) (hdetour : g.HasDetour) :
    g.insertCheckpoints.1.HasBreach := by
  have hk := insertCheckpoints_checkpointed h
  obtain ⟨e, he, hs, hdiv, z, hz, hzh, y, hy, hinner, hyi, hey, u, hu, d, hd, hp⟩ := hdetour
  have hbehind : g.insertCheckpoints.1.IsBehind y :=
    ⟨hinner.1, e, hk.old e he, hs, leadsTo_insertCheckpoints h he hs hdiv hy hinner hey⟩
  -- The last stage head on the way reads materialized data, so it is not behind a shuffle.
  have hhead : ∃ z ∈ g.elements, z.isStageHead = true ∧
      g.insertCheckpoints.1.LeadsTo (·.isBoundary = false) z y := by
    rcases exists_head_leadsTo h hp hz hu (of_isStageHead hzh).2 hy hd hinner.2 with hway | hhead
    · exact ⟨z, hz, hzh, u, hu, d, hd, hway⟩
    · exact hhead
  obtain ⟨z, hz, hzh, hlead⟩ := hhead
  have hnot : ¬ g.insertCheckpoints.1.IsBehind z := by
    intro hzb
    obtain ⟨x, hx, hf, hor⟩ := hzb.exists_feeds
    have hstage := isStageBoundary_of_feeds_head h hx (hk.old z hz) hzh hf
    rw [isStageBoundary_eq_false hk.coherent hx hor] at hstage
    cases hstage
  exact hasBreach_of_leadsTo (hk.old y hy) hyi hbehind (hk.old z hz) (of_isStageHead hzh).1
    (of_isStageHead hzh).2 hnot hlead

/-! ## The normal form -/

/-- The reduce side of a normal form is closed exactly if the flat graph has no detour, and then no
map block is reported to enter a reduce block beside a shuffle. -/
theorem normalization_closes_reduce_sides_iff (h : g.WellFormed) :
    (g.normalize.1.ReduceClosed ↔ ¬ g.flatten.1.HasDetour) ∧
      (g.normalize.1.ReduceClosed → ∀ defect ∈ (StageGraph.plan g.normalize.1).2,
        ∀ target label block, defect ≠ .entersBesideShuffle target label block) := by
  have hflat := (flatten_wellFormed h).coherent
  refine ⟨?_, fun hclosed defect hd =>
    ne_entersBesideShuffle (normalize_wellFormed h).coherent hclosed hd⟩
  rw [reduceClosed_normalize_iff h, hasBreach_iff (normalize_sameWays h)]
  exact not_congr ⟨hasDetour_of_hasBreach hflat, hasBreach_of_hasDetour hflat⟩

/-- A shuffle that feeds one operator twice, once through an operator that begins a stage. -/
def fork : FlowGraph :=
  let desc (name kind : String) : OperatorDesc := { name, kind, resources := [] }
  let key : PortDecl := { PortDecl.plain "in" "Record" with key := some ⟨["key"], []⟩ }
  assemble
    [.input "in" "Record",
      .operator "f" (desc "f" "update") [.plain "in" "Record"] [.plain "out" "Record"] .none,
      .operator "e" (desc "e" "fold") [key] [.plain "out" "Record"] .shuffle,
      .operator "h" (desc "h" "update") [.plain "in" "Record"] [.plain "out" "Record"] .stage,
      .operator "m" (desc "m" "confluent") [.plain "l" "Record", .plain "r" "Record"]
        [.plain "out" "Record"] .none,
      .output "out" "Record"]
    [(0, 1), (2, 3), (4, 5), (4, 7), (6, 8), (9, 10)]

theorem fork_wellFormed : fork.WellFormed :=
  assemble_wellFormed _ (by simp)

theorem fork_reported : (StageGraph.plan fork.normalize.1).2.contains
    (.entersBesideShuffle ⟨4, "m"⟩ "m.r" 2) = true := by cbv

theorem fork_not_closed : ¬ fork.normalize.1.ReduceClosed := fun hclosed =>
  ne_entersBesideShuffle (normalize_wellFormed fork_wellFormed).coherent hclosed
    (List.contains_iff_mem.1 fork_reported) _ _ _ rfl

set_option maxRecDepth 10000 in
theorem fork_entered : fork.isLegal = true ∧
    fork.normalize.1.normalFormCertificate.allPass = true ∧ ¬ fork.normalize.1.ReduceClosed ∧
      .entersBesideShuffle ⟨4, "m"⟩ "m.r" 2 ∈ (StageGraph.plan fork.normalize.1).2 :=
  ⟨by decide +kernel, by decide +kernel, fork_not_closed, List.contains_iff_mem.1 fork_reported⟩

theorem fork_hasDetour : fork.WellFormed ∧ fork.flatten.1.HasDetour := by
  refine ⟨fork_wellFormed, ?_⟩
  by_contra hno
  exact fork_not_closed ((normalization_closes_reduce_sides_iff fork_wellFormed).1.2 hno)

end FlowGraph
end FlowPlan
