import FlowPlan.Proofs.Regions

/-!
Where checkpoints are inserted.

Inserting checkpoints cuts some connections of a graph and leads their records through new
checkpoints instead.  `Checkpointed` says what the graph is like afterwards for any set of cut
connections, and `insertCheckpoints_checkpointed` says which ones the pass cuts: those behind a
diverging shuffle, and those into stage heads.  A checkpoint behind one shuffle does not change
whether another one diverges, so the cuts can be told from the graph in front of the pass.
-/

namespace FlowPlan
namespace FlowGraph

variable {g k : FlowGraph} {cut cut' : Connection → Prop} {via : Element → Prop} {e x y : Element}

/-- A graph with new checkpoints in place of some connections. -/
structure Checkpointed (g : FlowGraph) (cut : Connection → Prop) (k : FlowGraph) : Prop where
  coherent : k.Coherent
  entry_le : g.entry ≤ k.entry
  old : ∀ x ∈ g.elements, x ∈ k.elements
  new : ∀ x ∈ k.elements, x ∈ g.elements ∨ (x.isCheckpoint = true ∧ ∀ p ∈ x.portIds, g.entry ≤ p)
  kept : ∀ c, c.source < g.entry → c.target < g.entry →
    (c ∈ k.connections ↔ c ∈ g.connections ∧ ¬ cut c)
  /-- What leads to a new checkpoint has been cut. -/
  front : ∀ c ∈ k.connections, c.source < g.entry → g.entry ≤ c.target →
    ∃ d, ⟨c.source, d⟩ ∈ g.connections ∧ cut ⟨c.source, d⟩
  /-- What a new checkpoint leads to has been cut off. -/
  behind : ∀ c ∈ k.connections, g.entry ≤ c.source →
    ∃ u, ⟨u, c.target⟩ ∈ g.connections ∧ cut ⟨u, c.target⟩
  /-- Records of what has been cut go to a new checkpoint, and on from one. -/
  led : ∀ c ∈ g.connections, cut c → ∃ a, g.entry ≤ a ∧ ⟨c.source, a⟩ ∈ k.connections
  bridged : ∀ c ∈ g.connections, cut c → ∃ z ∈ k.elements, z.isCheckpoint = true ∧
    ∃ b ∈ z.outputIds, g.entry ≤ b ∧ ⟨b, c.target⟩ ∈ k.connections

theorem isCheckpoint_eq_false_of_isBoundary_eq_false (h : x.isBoundary = false) :
    x.isCheckpoint = false := by
  rw [← Bool.not_eq_true]
  intro hc
  simp [Element.isBoundary, Element.isStageBoundary, hc] at h

theorem isCheckpoint_eq_false_of_isShuffleBoundary (h : x.isShuffleBoundary = true) :
    x.isCheckpoint = false := by
  rw [Element.isShuffleBoundary, beq_iff_eq] at h
  rw [Element.isCheckpoint, h]
  exact Bool.and_false _

/-- Everything that is cut comes from a shuffle other than the given one. -/
def CutsBehindOthers (g : FlowGraph) (cut : Connection → Prop) (e : Element) : Prop :=
  ∀ c ∈ g.connections, cut c → ∀ a ∈ g.elements, c.source ∈ a.outputIds →
    a.isShuffleBoundary = true ∧ a ≠ e

theorem not_inRegion_of_cut (hothers : g.CutsBehindOthers cut e) {c : Connection}
    (hc : c ∈ g.connections) (hcut : cut c) (hx : x ∈ g.elements) (hs : c.source ∈ x.outputIds) :
    ¬ g.InRegion e x := by
  obtain ⟨hshuffle, hne⟩ := hothers c hc hcut x hx hs
  intro hin
  rw [isShuffleBoundary_eq_false_of_isBoundary_eq_false (hin.resolve_left hne).1] at hshuffle
  cases hshuffle

namespace Checkpointed

theorem refl (h : g.Coherent) : Checkpointed g (fun _ => False) g where
  coherent := h
  entry_le := Nat.le_refl _
  old := fun _ hx => hx
  new := fun _ hx => .inl hx
  kept := fun _ _ _ => by rw [not_false_eq_true, and_true]
  front := fun _ hc _ hle => absurd (h.target_lt hc) (Nat.not_lt.2 hle)
  behind := fun _ hc hle => absurd (h.source_lt hc) (Nat.not_lt.2 hle)
  led := fun _ _ hcut => hcut.elim
  bridged := fun _ _ hcut => hcut.elim

theorem congr (hk : Checkpointed g cut k) (hcut : ∀ c ∈ g.connections, cut c ↔ cut' c) :
    Checkpointed g cut' k where
  coherent := hk.coherent
  entry_le := hk.entry_le
  old := hk.old
  new := hk.new
  kept := fun c hs ht =>
    (hk.kept c hs ht).trans (and_congr_right fun hc => not_congr (hcut c hc))
  front := fun c hc hs ht => by
    obtain ⟨d, hd, hcd⟩ := hk.front c hc hs ht
    exact ⟨d, hd, (hcut _ hd).1 hcd⟩
  behind := fun c hc hs => by
    obtain ⟨u, hu, hcu⟩ := hk.behind c hc hs
    exact ⟨u, hu, (hcut _ hu).1 hcu⟩
  led := fun c hc hc' => hk.led c hc ((hcut c hc).2 hc')
  bridged := fun c hc hc' => hk.bridged c hc ((hcut c hc).2 hc')

theorem mem_old (hk : Checkpointed g cut k) (hx : x ∈ k.elements) (hc : x.isCheckpoint = false) :
    x ∈ g.elements := by
  refine (hk.new x hx).resolve_right fun hnew => ?_
  rw [hc] at hnew
  cases hnew.1

/-- The number of a new port, or the element of an old one. -/
theorem mem_of_port_lt (hk : Checkpointed g cut k) (hx : x ∈ k.elements) {p : PortId}
    (hp : p ∈ x.portIds) (hlt : p < g.entry) : x ∈ g.elements :=
  (hk.new x hx).resolve_right fun hnew => Nat.not_lt.2 (hnew.2 p hp) hlt

/-! ## One more checkpoint -/

section PutIn

variable {l : FlowGraph} {gone : Connection → Prop} {u : PortId}

/-- A new checkpoint takes over some of the connections of a port, none of which has been cut. -/
theorem putIn (h : g.Coherent) (hk : Checkpointed g cut k) (hl : l.Coherent)
    (helems : l.elements = k.elements ++ [x]) (hx : x.isCheckpoint = true)
    (hin : x.inputIds = [k.entry]) (hout : x.outputIds = [k.exit])
    (hmem : ∀ c, c ∈ l.connections ↔ (c ∈ k.connections ∧ ¬ gone c) ∨ c = ⟨u, k.entry⟩ ∨
      (c.source = k.exit ∧ ⟨u, c.target⟩ ∈ k.connections ∧ gone ⟨u, c.target⟩))
    (hgone : ∀ c ∈ k.connections, gone c → c.source = u ∧ c ∈ g.connections)
    (hsome : ∃ d, ⟨u, d⟩ ∈ g.connections ∧ gone ⟨u, d⟩) :
    Checkpointed g (fun c => cut c ∨ gone c) l := by
  obtain ⟨d₀, hd₀, hgone₀⟩ := hsome
  have hu : u < g.entry := h.source_lt hd₀
  have hexit : g.entry ≤ k.exit := Nat.le_succ_of_le hk.entry_le
  have hnot_exit : ∀ {p}, p < g.entry → p ≠ k.exit := fun hp =>
    Nat.ne_of_lt (Nat.lt_of_lt_of_le hp hexit)
  have hxl : x ∈ l.elements := by
    rw [helems]
    exact List.mem_append_right _ (List.mem_singleton_self x)
  have hentry : k.entry < l.entry :=
    hl.port_lt hxl (by rw [Element.portIds_eq, hin]; exact List.mem_cons_self)
  refine
    { coherent := hl
      entry_le := Nat.le_trans hk.entry_le (Nat.le_of_lt hentry)
      old := ?old
      new := ?new
      kept := ?kept
      front := ?front
      behind := ?behind
      led := ?led
      bridged := ?bridged }
  case old =>
    intro z hz
    rw [helems]
    exact List.mem_append_left _ (hk.old z hz)
  case new =>
    intro z hz
    rw [helems, List.mem_append, List.mem_singleton] at hz
    rcases hz with hz | rfl
    · exact hk.new z hz
    · refine .inr ⟨hx, fun p hp => ?_⟩
      rcases (Element.mem_portIds_of_single hin hout).1 hp with rfl | rfl
      · exact hk.entry_le
      · exact hexit
  case kept =>
    intro c hs ht
    have hnew : ¬ (c = ⟨u, k.entry⟩ ∨ (c.source = k.exit ∧ ⟨u, c.target⟩ ∈ k.connections ∧
        gone ⟨u, c.target⟩)) := by
      intro hor
      rcases hor with rfl | ⟨hsource, -⟩
      · exact Nat.not_lt.2 hk.entry_le ht
      · exact hnot_exit hs hsource
    rw [hmem, or_iff_left hnew, hk.kept c hs ht, not_or, and_assoc]
  case front =>
    intro c hc hs ht
    rcases (hmem c).1 hc with ⟨hc, -⟩ | rfl | ⟨hsource, -⟩
    · obtain ⟨d, hd, hcut⟩ := hk.front c hc hs ht
      exact ⟨d, hd, .inl hcut⟩
    · exact ⟨d₀, hd₀, .inr hgone₀⟩
    · exact absurd hsource (hnot_exit hs)
  case behind =>
    intro c hc hs
    rcases (hmem c).1 hc with ⟨hc, -⟩ | rfl | ⟨-, hold, hg⟩
    · obtain ⟨w, hw, hcut⟩ := hk.behind c hc hs
      exact ⟨w, hw, .inl hcut⟩
    · exact absurd hu (Nat.not_lt.2 hs)
    · exact ⟨u, (hgone _ hold hg).2, .inr hg⟩
  case led =>
    intro c hc hcut
    by_cases hcut' : cut c
    · obtain ⟨a, hanew, hat⟩ := hk.led c hc hcut'
      refine ⟨a, hanew, (hmem _).2 (.inl ⟨hat, fun hg => ?_⟩)⟩
      exact Nat.not_lt.2 hanew (h.target_lt (hgone _ hat hg).2)
    · have hg := hcut.resolve_left hcut'
      have hck := (hk.kept c (h.source_lt hc) (h.target_lt hc)).2 ⟨hc, hcut'⟩
      rw [(hgone c hck hg).1]
      exact ⟨k.entry, hk.entry_le, (hmem _).2 (.inr (.inl rfl))⟩
  case bridged =>
    intro c hc hcut
    by_cases hcut' : cut c
    · obtain ⟨z, hz, hzc, b, hb, hbnew, hbt⟩ := hk.bridged c hc hcut'
      refine ⟨z, by rw [helems]; exact List.mem_append_left _ hz, hzc, b, hb, hbnew, ?_⟩
      refine (hmem _).2 (.inl ⟨hbt, fun hg => ?_⟩)
      exact Nat.not_lt.2 hbnew (h.source_lt (hgone _ hbt hg).2)
    · have hg := hcut.resolve_left hcut'
      have hck := (hk.kept c (h.source_lt hc) (h.target_lt hc)).2 ⟨hc, hcut'⟩
      have hsource := (hgone c hck hg).1
      refine ⟨x, hxl, hx, k.exit, by rw [hout]; exact List.mem_singleton_self _, hexit,
        (hmem _).2 (.inr (.inr ?_))⟩
      rw [← hsource]
      exact ⟨rfl, hck, hg⟩

end PutIn

theorem insertOn (h : g.Coherent) (hk : Checkpointed g cut k) {c : Connection}
    (hc : c ∈ k.connections) (hcg : c ∈ g.connections) :
    Checkpointed g (fun c' => cut c' ∨ c' = c) (k.insertPseudoOn c .stage) := by
  refine hk.putIn h (u := c.source) (insertPseudoOn_coherent hk.coherent c .stage)
    (elements_insertPseudoOn k c .stage) rfl rfl rfl (fun c' => ?_) ?_ ⟨c.target, hcg, rfl⟩
  · rw [mem_insertPseudoOn hk.coherent hc]
    refine or_congr_right (or_congr_right ⟨?_, ?_⟩)
    · rintro rfl
      exact ⟨rfl, hc, rfl⟩
    · intro hmem
      obtain ⟨hs, -, heq⟩ := hmem
      rw [← heq, ← hs]
  · rintro c' - rfl
    exact ⟨rfl, hcg⟩

theorem insertAfter (h : g.Coherent) (hk : Checkpointed g cut k) {p : PortId}
    (hp : k.isOutputPort p = true) (hsome : ∃ d, ⟨p, d⟩ ∈ g.connections)
    (huncut : ∀ c ∈ g.connections, c.source = p → ¬ cut c) :
    Checkpointed g (fun c => cut c ∨ c.source = p) (k.insertPseudoAfter p .stage) := by
  obtain ⟨d₀, hd₀⟩ := hsome
  refine hk.putIn h (u := p) (insertPseudoAfter_coherent hk.coherent p .stage)
    (elements_insertPseudoAfter k p .stage) rfl rfl rfl (fun c => ?_) (fun c hc hs => ?_)
    ⟨d₀, hd₀, rfl⟩
  · rw [mem_insertPseudoAfter hk.coherent hp]
    simp only [ne_eq, and_true]
  · refine ⟨hs, ?_⟩
    subst hs
    have hlt := h.source_lt hd₀
    by_cases hdlt : c.target < g.entry
    · exact ((hk.kept c hlt hdlt).1 hc).1
    · obtain ⟨d, hd, hcut⟩ := hk.front c hc hlt (Nat.not_lt.1 hdlt)
      exact absurd hcut (huncut _ hd rfl)

/-! ## Paths past the checkpoints -/

/-- A path without checkpoints between old elements was there before. -/
theorem leadsTo_of (hg : g.Coherent) (hk : Checkpointed g cut k)
    (hvia : ∀ z, via z → z.isCheckpoint = false) (hx : x ∈ g.elements) (hy : y ∈ g.elements)
    (h : k.LeadsTo via x y) : g.LeadsTo via x y := by
  obtain ⟨u, hu, d, hd, hp⟩ := h
  refine ⟨u, hu, d, hd, ?_⟩
  have hdlt := hg.port_lt hy (Element.mem_portIds.2 (.inl hd))
  have hult := hg.port_lt hx (Element.mem_portIds.2 (.inr hu))
  clear hu hd hx hy
  induction hp with
  | direct hc => exact .direct ((hk.kept _ hult hdlt).1 hc).1
  | through first he hv ha hb _ ih =>
    have heg := hk.mem_old he (hvia _ hv)
    have halt := hg.port_lt heg (Element.mem_portIds.2 (.inl ha))
    have hblt := hg.port_lt heg (Element.mem_portIds.2 (.inr hb))
    exact .through ((hk.kept _ hult halt).1 first).1 heg hv ha hb (ih hdlt hblt)

/-- A path none of whose connections is cut is still there. -/
theorem leadsTo_to (hg : g.Coherent) (hk : Checkpointed g cut k)
    (hcut : ∀ c ∈ g.connections, ∀ a ∈ g.elements, ∀ b ∈ g.elements, c.source ∈ a.outputIds →
      c.target ∈ b.inputIds → a = x ∨ via a → b = y ∨ via b → ¬ cut c)
    (hx : x ∈ g.elements) (hy : y ∈ g.elements) (h : g.LeadsTo via x y) : k.LeadsTo via x y := by
  have hpath : ∀ {u d}, g.Carries via u d → d ∈ y.inputIds → ∀ a ∈ g.elements,
      u ∈ a.outputIds → a = x ∨ via a → k.Carries via u d := by
    intro u d hp hd
    induction hp with
    | direct hc =>
      intro a ha hu hon
      exact .direct ((hk.kept _ (hg.source_lt hc) (hg.target_lt hc)).2
        ⟨hc, hcut _ hc a ha y hy hu hd hon (.inl rfl)⟩)
    | through first he hv hin hout _ ih =>
      intro a ha hu hon
      exact .through ((hk.kept _ (hg.source_lt first) (hg.target_lt first)).2
        ⟨first, hcut _ first a ha _ he hu hin hon (.inr hv)⟩) (hk.old _ he) hv hin hout
        (ih hd _ he hout (.inr hv))
  obtain ⟨u, hu, d, hd, hp⟩ := h
  exact ⟨u, hu, d, hd, hpath hp hd x hx hu (.inl rfl)⟩

/-! ## Cuts behind shuffles -/

theorem inRegion_iff (hg : g.Coherent) (hk : Checkpointed g cut k)
    (hothers : g.CutsBehindOthers cut e) (he : e ∈ g.elements) (hx : x ∈ g.elements) :
    k.InRegion e x ↔ g.InRegion e x := by
  refine or_congr_right (and_congr_right fun _ => ⟨fun hlead => ?_, fun hlead => ?_⟩)
  · exact hk.leadsTo_of hg (fun _ => isCheckpoint_eq_false_of_isBoundary_eq_false) he hx hlead
  · refine hk.leadsTo_to hg (fun c hc a ha b hb hs ht hon _ hcut => ?_) he hx hlead
    obtain ⟨hshuffle, hne⟩ := hothers c hc hcut a ha hs
    rw [isShuffleBoundary_eq_false_of_isBoundary_eq_false (hon.resolve_left hne)] at hshuffle
    cases hshuffle

theorem mem_of_inRegion (hk : Checkpointed g cut k) (he : e ∈ g.elements) (hx : x ∈ k.elements)
    (hin : k.InRegion e x) : x ∈ g.elements := by
  rcases hin with rfl | ⟨hb, -⟩
  · exact he
  · exact hk.mem_old hx (isCheckpoint_eq_false_of_isBoundary_eq_false hb)

/-- Whether a shuffle diverges does not depend on checkpoints behind other shuffles. -/
theorem diverges_eq (hg : g.Coherent) (hk : Checkpointed g cut k)
    (hothers : g.CutsBehindOthers cut e) (he : e ∈ g.elements) (hs : e.isShuffleBoundary = true) :
    k.diverges e.id = g.diverges e.id := by
  have hregion := fun x hx => hk.inRegion_iff hg hothers he (x := x) hx
  -- Connections from old elements to old elements.
  have hlt : ∀ {a b : Element} {c : Connection}, a ∈ g.elements → b ∈ g.elements →
      c.source ∈ a.outputIds → c.target ∈ b.inputIds → c.source < g.entry ∧ c.target < g.entry :=
    fun ha hb hsa htb => ⟨hg.port_lt ha (Element.mem_portIds.2 (.inr hsa)),
      hg.port_lt hb (Element.mem_portIds.2 (.inl htb))⟩
  rw [Bool.eq_iff_iff, diverges_iff hk.coherent (hk.old e he), diverges_iff hg he]
  constructor
  · intro hmem
    obtain ⟨x, hx, hin, hor⟩ := hmem
    have hxg := hk.mem_of_inRegion he hx hin
    refine ⟨x, hxg, (hregion x hxg).1 hin, ?_⟩
    rcases hor with ⟨y, hy, hys, hne, c, hc, hsx, hty⟩ | ⟨hne, p, hp, ⟨c, hc, hsp, htx⟩, hout⟩
    · have hyg := hk.mem_old hy (isCheckpoint_eq_false_of_isShuffleBoundary hys)
      obtain ⟨hsl, htl⟩ := hlt hxg hyg hsx hty
      exact .inl ⟨y, hyg, hys, hne, c, ((hk.kept c hsl htl).1 hc).1, hsx, hty⟩
    · refine .inr ⟨hne, ?_⟩
      by_cases hslt : c.source < g.entry
      · have hpg := hk.mem_of_port_lt hp (Element.mem_portIds.2 (.inr hsp)) hslt
        have htl := (hlt hpg hxg hsp htx).2
        exact ⟨p, hpg, ⟨c, ((hk.kept c hslt htl).1 hc).1, hsp, htx⟩,
          fun hin => hout ((hregion p hpg).2 hin)⟩
      · obtain ⟨u, hu, hcut⟩ := hk.behind c hc (Nat.not_lt.1 hslt)
        obtain ⟨a, ha, hsa⟩ := hg.source_mem hu
        exact ⟨a, ha, ⟨_, hu, hsa, htx⟩, not_inRegion_of_cut hothers hu hcut ha hsa⟩
  · intro hmem
    obtain ⟨x, hx, hin, hor⟩ := hmem
    refine ⟨x, hk.old x hx, (hregion x hx).2 hin, ?_⟩
    rcases hor with ⟨y, hy, hys, hne, c, hc, hsx, hty⟩ | ⟨hne, p, hp, ⟨c, hc, hsp, htx⟩, hout⟩
    · obtain ⟨hsl, htl⟩ := hlt hx hy hsx hty
      have huncut : ¬ cut c := fun hcut => not_inRegion_of_cut hothers hc hcut hx hsx hin
      exact .inl ⟨y, hk.old y hy, hys, hne, c, (hk.kept c hsl htl).2 ⟨hc, huncut⟩, hsx, hty⟩
    · refine .inr ⟨hne, ?_⟩
      by_cases hcut : cut c
      · obtain ⟨z, hz, hzc, b, hb, -, hbt⟩ := hk.bridged c hc hcut
        refine ⟨z, hz, ⟨_, hbt, hb, htx⟩, fun hzin => ?_⟩
        rcases hzin with rfl | ⟨hzb, -⟩
        · rw [isCheckpoint_eq_false_of_isShuffleBoundary hs] at hzc
          cases hzc
        · rw [isCheckpoint_eq_false_of_isBoundary_eq_false hzb] at hzc
          cases hzc
      · obtain ⟨hsl, htl⟩ := hlt hp hx hsp htx
        exact ⟨p, hk.old p hp, ⟨c, (hk.kept c hsl htl).2 ⟨hc, hcut⟩, hsp, htx⟩,
          fun hin => hout ((hregion p hp).1 hin)⟩

/-- Whether a port is materialized does not depend on cuts elsewhere. -/
theorem isMaterialized_eq (hg : g.Coherent) (hk : Checkpointed g cut k) {p : PortId}
    (he : e ∈ g.elements) (hp : p ∈ e.outputIds)
    (huncut : ∀ c ∈ g.connections, c.source = p → ¬ cut c) :
    k.isMaterialized p = g.isMaterialized p := by
  rw [Bool.eq_iff_iff, isMaterialized_iff hk.coherent (isOutputPort_iff.2 ⟨e, hk.old e he, hp⟩),
    isMaterialized_iff hg (isOutputPort_iff.2 ⟨e, he, hp⟩)]
  have hplt := hg.port_lt he (Element.mem_portIds.2 (.inr hp))
  constructor
  · intro hall y hy d hd hc
    exact hall y (hk.old y hy) d hd
      ((hk.kept ⟨p, d⟩ hplt (hg.target_lt hc)).2 ⟨hc, huncut _ hc rfl⟩)
  · intro hall y hy d hd hc
    rcases hk.new y hy with hyg | ⟨hyc, -⟩
    · have hdlt := hg.port_lt hyg (Element.mem_portIds.2 (.inl hd))
      exact hall y hyg d hd ((hk.kept ⟨p, d⟩ hplt hdlt).1 hc).1
    · exact hyc

end Checkpointed

/-! ## Checkpoints behind shuffles -/

/-- The connection leaves a diverging shuffle whose turn has come, at a port that is not
materialized yet. -/
def CutBehind (g : FlowGraph) (rest : List ElementId) (c : Connection) : Prop :=
  ∃ e ∈ g.elements, e.isShuffleBoundary = true ∧ e.id ∉ rest ∧ g.diverges e.id = true ∧
    c.source ∈ e.outputIds ∧ g.isMaterialized c.source = false

theorem Coherent.outputIds_nodup (h : g.Coherent) (he : e ∈ g.elements) : e.outputIds.Nodup := by
  have hn := h.portIds_nodup he
  rw [Element.portIds_eq] at hn
  exact (List.nodup_append.1 hn).2.1

theorem checkpointBehind_checkpointed (h : g.Coherent) {s : FlowGraph × Nat}
    (hk : Checkpointed g cut s.1) (he : e ∈ g.elements) {p : PortId} (hp : p ∈ e.outputIds)
    (huncut : ∀ c ∈ g.connections, c.source = p → ¬ cut c) :
    Checkpointed g (fun c => cut c ∨ (c.source = p ∧ g.isMaterialized p = false))
      (checkpointBehind s p).1 := by
  unfold checkpointBehind
  rw [hk.isMaterialized_eq h he hp huncut]
  by_cases hm : g.isMaterialized p = true
  · rw [if_pos hm]
    exact hk.congr fun c _ => by simp [hm]
  · rw [if_neg hm]
    have hsome := exists_target_of_not_isMaterialized h (isOutputPort_iff.2 ⟨e, he, hp⟩) hm
    refine (hk.insertAfter h ?_ hsome huncut).congr fun c _ => ?_
    · exact isOutputPort_iff.2 ⟨e, hk.old e he, hp⟩
    · rw [Bool.not_eq_true] at hm
      rw [and_iff_left hm]

theorem foldl_checkpointBehind_checkpointed (h : g.Coherent) (he : e ∈ g.elements)
    {ps : List PortId} (hps : ∀ p ∈ ps, p ∈ e.outputIds) (hn : ps.Nodup) {s : FlowGraph × Nat}
    (hk : Checkpointed g cut s.1) (huncut : ∀ c ∈ g.connections, c.source ∈ ps → ¬ cut c) :
    Checkpointed g (fun c => cut c ∨ (c.source ∈ ps ∧ g.isMaterialized c.source = false))
      (ps.foldl checkpointBehind s).1 := by
  induction ps generalizing s cut with
  | nil => exact hk.congr fun c _ => by simp
  | cons p ps ih =>
    obtain ⟨hnot, hn⟩ := List.nodup_cons.1 hn
    have hfirst := checkpointBehind_checkpointed h hk he (hps p List.mem_cons_self)
      fun c hc hs => huncut c hc (hs ▸ List.mem_cons_self)
    refine (ih (fun q hq => hps q (List.mem_cons_of_mem p hq)) hn hfirst
      fun c hc hs hcut => ?_).congr fun c _ => ?_
    · rcases hcut with hcut | ⟨hsp, -⟩
      · exact huncut c hc (List.mem_cons_of_mem p hs) hcut
      · exact hnot (hsp ▸ hs)
    · rw [or_assoc, List.mem_cons, or_and_right]
      refine or_congr_right (or_congr_left ⟨?_, ?_⟩)
      · intro hsp
        exact ⟨hsp.1, hsp.1 ▸ hsp.2⟩
      · intro hsp
        exact ⟨hsp.1, hsp.1 ▸ hsp.2⟩

/-- What has been cut when a shuffle has its turn comes from other shuffles. -/
theorem cutBehind_cutsBehindOthers (h : g.Coherent) (e : Element) (rest : List ElementId) :
    g.CutsBehindOthers (g.CutBehind (e.id :: rest)) e := by
  intro c _ hcut a ha hsa
  obtain ⟨a', ha', hs', hturn, -, hsa', -⟩ := hcut
  obtain rfl := h.eq_of_output ha ha' hsa hsa'
  exact ⟨hs', fun heq => hturn (heq ▸ List.mem_cons_self)⟩

theorem checkpointShuffle_checkpointed (h : g.Coherent) {s : FlowGraph × Nat}
    {rest : List ElementId} (he : e ∈ g.elements) (hs : e.isShuffleBoundary = true)
    (hnot : e.id ∉ rest) (hk : Checkpointed g (g.CutBehind (e.id :: rest)) s.1) :
    Checkpointed g (g.CutBehind rest) (checkpointShuffle s e.id).1 := by
  have hothers := cutBehind_cutsBehindOthers h e rest
  -- The turn of the shuffle adds what it cuts itself.
  have hcons : ∀ c, g.CutBehind rest c ↔ g.CutBehind (e.id :: rest) c ∨
      (g.diverges e.id = true ∧ c.source ∈ e.outputIds ∧ g.isMaterialized c.source = false) := by
    intro c
    constructor
    · intro hcut
      obtain ⟨a, ha, hsa, hturn, hrest⟩ := hcut
      by_cases hid : a.id = e.id
      · obtain rfl := h.eq_of_id_eq ha he hid
        exact .inr hrest
      · exact .inl ⟨a, ha, hsa, by simp [hid, hturn], hrest⟩
    · intro hor
      rcases hor with ⟨a, ha, hsa, hturn, hrest⟩ | hrest
      · exact ⟨a, ha, hsa, fun hmem => hturn (List.mem_cons_of_mem _ hmem), hrest⟩
      · exact ⟨e, he, hs, hnot, hrest⟩
  unfold checkpointShuffle
  rw [hk.diverges_eq h hothers he hs, hk.coherent.outputsOf_eq (hk.old e he)]
  by_cases hd : g.diverges e.id = true
  · rw [if_pos hd]
    refine (foldl_checkpointBehind_checkpointed h he (fun p hp => hp) (h.outputIds_nodup he) hk
      fun c hc hsc hcut => ?_).congr fun c _ => ?_
    · exact (hothers c hc hcut e he hsc).2 rfl
    · rw [hcons c]
      exact or_congr_right (and_iff_right hd).symm
  · rw [if_neg hd]
    exact hk.congr fun c _ => by simp [hcons c, hd]

/-! ## Checkpoints before stage heads -/

/-- The records of the connection are not materialized. -/
def IsLoose (g : FlowGraph) (c : Connection) : Prop :=
  ∃ x ∈ g.elements, c.source ∈ x.outputIds ∧ x.isStageBoundary = false

/-- The connection leads records that are not materialized into a stage head whose turn has
come. -/
def CutBefore (g : FlowGraph) (rest : List ElementId) (c : Connection) : Prop :=
  g.IsLoose c ∧ ∃ y ∈ g.elements, y.isStageHead = true ∧ y.id ∉ rest ∧ c.target ∈ y.inputIds

theorem checkpointOn_checkpointed (h : g.Coherent) {s : FlowGraph × Nat}
    (hk : Checkpointed g cut s.1) {c : Connection} (hc : c ∈ s.1.connections)
    (hy : y ∈ g.elements) (ht : c.target ∈ y.inputIds) :
    Checkpointed g (fun c' => cut c' ∨ (c' = c ∧ g.IsLoose c)) (checkpointOn s c).1 := by
  obtain ⟨z, hz, hsz⟩ := hk.coherent.source_mem hc
  unfold checkpointOn
  rw [hk.coherent.owner?_eq_some hz (Element.mem_portIds.2 (.inr hsz)), Option.any_some]
  by_cases hb : z.isStageBoundary = true
  · rw [if_pos hb]
    refine hk.congr fun c' _ => (or_iff_left ?_).symm
    intro hloose
    obtain ⟨-, x, hx, hsx, hxb⟩ := hloose
    obtain rfl := hk.coherent.eq_of_output (hk.old x hx) hz hsx hsz
    rw [hb] at hxb
    cases hxb
  · rw [if_neg hb]
    have hzg : z ∈ g.elements := by
      refine hk.mem_old hz ?_
      rw [← Bool.not_eq_true]
      intro hcheck
      exact hb (by rw [Element.isStageBoundary, hcheck, Bool.or_true])
    have hcg := ((hk.kept c (h.port_lt hzg (Element.mem_portIds.2 (.inr hsz)))
      (h.port_lt hy (Element.mem_portIds.2 (.inl ht)))).1 hc).1
    refine (hk.insertOn h hc hcg).congr fun c' _ => or_congr_right (and_iff_left ?_).symm
    exact ⟨z, hzg, hsz, by simpa using hb⟩

theorem checkpointHead_checkpointed (h : g.Coherent) {s : FlowGraph × Nat}
    (hk : Checkpointed g cut s.1) (hy : y ∈ g.elements) :
    Checkpointed g (fun c => cut c ∨ (c.target ∈ y.inputIds ∧ g.IsLoose c))
      (checkpointHead s y.id).1 := by
  have hys := hk.old y hy
  have hincoming := fun c => hk.coherent.mem_incoming hys (c := c)
  have hend := foldl_insertOn_induction (f := checkpointOn)
    (P := fun t rest => (rest.Nodup ∧ ∀ c ∈ rest, c.target ∈ y.inputIds) ∧
      Checkpointed g (fun c => cut c ∨ (c.target ∈ y.inputIds ∧ c ∉ rest ∧ g.IsLoose c)) t)
    (fun s c => ?_) ?_ hk.coherent (incoming_nodup hk.coherent hys)
    (fun c hc => ((hincoming c).1 hc).1)
    ⟨⟨incoming_nodup hk.coherent hys, fun c hc => ((hincoming c).1 hc).2⟩, hk.congr fun c hc => ?_⟩
  · exact hend.2.2.congr fun c _ => by simp
  · unfold checkpointOn
    split
    · exact .inl rfl
    · exact .inr ⟨_, rfl⟩
  · intro t c rest _ hc hP
    obtain ⟨⟨hn, htargets⟩, ht⟩ := hP
    obtain ⟨hnot, hn⟩ := List.nodup_cons.1 hn
    have htc := htargets c List.mem_cons_self
    refine ⟨⟨hn, fun c' hc' => htargets c' (List.mem_cons_of_mem c hc')⟩, ?_⟩
    refine (checkpointOn_checkpointed h ht hc hy htc).congr fun c' _ => ?_
    rw [or_assoc]
    refine or_congr_right ⟨?_, ?_⟩
    · intro hor
      rcases hor with ⟨ht', hlate, hloose⟩ | ⟨rfl, hloose⟩
      · exact ⟨ht', fun hmem => hlate (List.mem_cons_of_mem c hmem), hloose⟩
      · exact ⟨htc, hnot, hloose⟩
    · intro hcut
      obtain ⟨ht', hlate, hloose⟩ := hcut
      by_cases heq : c' = c
      · exact .inr ⟨heq, heq ▸ hloose⟩
      · exact .inl ⟨ht', by simp [heq, hlate], hloose⟩
  · -- What is not among the connections into the head by now has been cut.
    refine ⟨.inl, fun hor => hor.elim id fun hcut => ?_⟩
    obtain ⟨ht, hgone, -⟩ := hcut
    by_contra hno
    exact hgone ((hincoming c).2
      ⟨(hk.kept c (h.source_lt hc) (h.target_lt hc)).2 ⟨hc, hno⟩, ht⟩)

/-! ## The pass -/

theorem ids_nodup_of_perm (h : g.Coherent) {order : List Element} {p : Element → Bool}
    (horder : order.Perm (g.elements.filter p)) : (order.map (·.id)).Nodup :=
  (horder.map _).nodup_iff.2 ((h.idsWhere_ascending p).imp Nat.ne_of_lt)

theorem checkpointed_of_all (h : g.Coherent) {order : List Element}
    (horder : order.Perm (g.elements.filter (·.isShuffleBoundary))) :
    Checkpointed g (g.CutBehind (order.map (·.id))) g := by
  refine (Checkpointed.refl h).congr fun c _ => iff_of_false id ?_
  rintro ⟨e, he, hs, hturn, -⟩
  exact hturn (List.mem_map_of_mem (horder.mem_iff.2 (List.mem_filter.2 ⟨he, hs⟩)))

/-- Shuffles that have their turns one after the other, with others still to come. -/
theorem foldl_checkpointShuffle_checkpointed (h : g.Coherent) {es : List Element}
    {rest : List ElementId} (hes : ∀ e ∈ es, e ∈ g.elements ∧ e.isShuffleBoundary = true)
    (hn : (es.map (·.id) ++ rest).Nodup) {s : FlowGraph × Nat}
    (hk : Checkpointed g (g.CutBehind (es.map (·.id) ++ rest)) s.1) :
    Checkpointed g (g.CutBehind rest) ((es.map (·.id)).foldl checkpointShuffle s).1 := by
  induction es generalizing s with
  | nil => exact hk
  | cons e es ih =>
    obtain ⟨he, hs⟩ := hes e List.mem_cons_self
    obtain ⟨hnot, hn⟩ := List.nodup_cons.1 hn
    exact ih (fun x hx => hes x (List.mem_cons_of_mem e hx)) hn
      (checkpointShuffle_checkpointed h he hs hnot hk)

/-- All shuffles, in any order. -/
theorem shuffles_checkpointed (h : g.Coherent) {order : List Element}
    (horder : order.Perm (g.elements.filter (·.isShuffleBoundary))) :
    Checkpointed g (g.CutBehind []) ((order.map (·.id)).foldl checkpointShuffle (g, 0)).1 := by
  have hn := ids_nodup_of_perm h horder
  have hstart := checkpointed_of_all h horder
  rw [← List.append_nil (order.map (·.id))] at hn hstart
  exact foldl_checkpointShuffle_checkpointed h
    (fun e he => List.mem_filter.1 (horder.mem_iff.1 he)) hn (s := (g, 0)) hstart

theorem isCheckpoint_eq_false_of_isStageHead (hx : x.isStageHead = true) :
    x.isCheckpoint = false := by
  rw [Element.isStageHead, Bool.and_eq_true] at hx
  rw [Element.isCheckpoint, Bool.and_eq_false_iff]
  left
  unfold Element.operator? ElementKind.operator? at hx
  unfold Element.isPseudo
  cases hkind : x.kind <;> simp_all [ElementKind.isPseudo]

theorem isStageHead_eq_false_of_isIdentity (hx : x.isIdentity = true) : x.isStageHead = false := by
  simp only [Element.isIdentity, Bool.and_eq_true, beq_iff_eq] at hx
  rw [Element.isStageHead, hx.2]
  exact Bool.and_false _

/-- The turn of a stage head. -/
theorem checkpointHead_turn (h : g.Coherent) {s : FlowGraph × Nat} {rest : List ElementId}
    (hy : y ∈ g.elements) (hyh : y.isStageHead = true) (hnot : y.id ∉ rest)
    (hk : Checkpointed g (fun c => g.CutBehind [] c ∨ g.CutBefore (y.id :: rest) c) s.1) :
    Checkpointed g (fun c => g.CutBehind [] c ∨ g.CutBefore rest c)
      (checkpointHead s y.id).1 := by
  refine (checkpointHead_checkpointed h hk hy).congr fun c _ => ?_
  rw [or_assoc]
  refine or_congr_right ⟨?_, ?_⟩
  · intro hor
    rcases hor with ⟨hloose, z, hz, hzh, hturn, htz⟩ | ⟨hty, hloose⟩
    · exact ⟨hloose, z, hz, hzh, fun hmem => hturn (List.mem_cons_of_mem _ hmem), htz⟩
    · exact ⟨hloose, y, hy, hyh, hnot, hty⟩
  · intro hcut
    obtain ⟨hloose, z, hz, hzh, hturn, htz⟩ := hcut
    by_cases hid : z.id = y.id
    · obtain rfl := h.eq_of_id_eq hz hy hid
      exact .inr ⟨htz, hloose⟩
    · exact .inl ⟨hloose, z, hz, hzh, by simp [hid, hturn], htz⟩

theorem foldl_checkpointHead_checkpointed (h : g.Coherent) {es : List Element}
    {rest : List ElementId} (hes : ∀ y ∈ es, y ∈ g.elements ∧ y.isStageHead = true)
    (hn : (es.map (·.id) ++ rest).Nodup) {s : FlowGraph × Nat}
    (hk : Checkpointed g (fun c => g.CutBehind [] c ∨ g.CutBefore (es.map (·.id) ++ rest) c) s.1) :
    Checkpointed g (fun c => g.CutBehind [] c ∨ g.CutBefore rest c)
      ((es.map (·.id)).foldl checkpointHead s).1 := by
  induction es generalizing s with
  | nil => exact hk
  | cons y es ih =>
    obtain ⟨hy, hhead⟩ := hes y List.mem_cons_self
    obtain ⟨hnot, hn⟩ := List.nodup_cons.1 hn
    exact ih (fun x hx => hes x (List.mem_cons_of_mem y hx)) hn
      (checkpointHead_turn h hy hhead hnot hk)

/-- The checkpoints behind shuffles bring no stage heads. -/
theorem Checkpointed.mem_heads (hk : Checkpointed g cut k) :
    y ∈ k.elements.filter (·.isStageHead) ↔ y ∈ g.elements ∧ y.isStageHead = true := by
  rw [List.mem_filter]
  refine and_congr_left fun hhead => ⟨fun hy => ?_, hk.old y⟩
  exact hk.mem_old hy (isCheckpoint_eq_false_of_isStageHead hhead)

/-- No stage head has had its turn. -/
theorem Checkpointed.before_heads (hk : Checkpointed g (g.CutBehind []) k) :
    Checkpointed g (fun c => g.CutBehind [] c ∨
      g.CutBefore ((k.elements.filter (·.isStageHead)).map (·.id)) c) k := by
  refine hk.congr fun c _ => (or_iff_left ?_).symm
  rintro ⟨-, y, hy, hhead, hturn, -⟩
  exact hturn (List.mem_map_of_mem (hk.mem_heads.2 ⟨hy, hhead⟩))

/-- A connection on which a checkpoint is inserted. -/
def IsCut (g : FlowGraph) (c : Connection) : Prop := g.CutBehind [] c ∨ g.CutBefore [] c

/-- Checkpoints take the place of the connections behind diverging shuffles and of those that lead
into stage heads. -/
theorem insertCheckpoints_checkpointed (h : g.Coherent) :
    Checkpointed g g.IsCut g.insertCheckpoints.1 := by
  have hshuffles := shuffles_checkpointed h (.refl _)
  rw [insertCheckpoints, idsWhere]
  generalize ((g.elements.filter (·.isShuffleBoundary)).map (·.id)).foldl checkpointShuffle (g, 0)
    = s at hshuffles
  have hn := ids_nodup_of_perm hshuffles.coherent (.refl (s.1.elements.filter (·.isStageHead)))
  have hstart := hshuffles.before_heads
  rw [← List.append_nil ((s.1.elements.filter (·.isStageHead)).map (·.id))] at hn hstart
  exact foldl_checkpointHead_checkpointed h (fun y hy => hshuffles.mem_heads.1 hy) hn hstart

/-! ## Around the checkpoints -/

section Checkpoints

variable (h : g.Coherent)

include h

/-- A connection stays unless it leaves a diverging shuffle or enters a stage head. -/
theorem mem_insertCheckpoints {c : Connection} (hc : c ∈ g.connections) (hx : x ∈ g.elements)
    (hs : c.source ∈ x.outputIds) (hy : y ∈ g.elements) (ht : c.target ∈ y.inputIds)
    (hstays : x.isShuffleBoundary = true → g.diverges x.id = false)
    (hhead : y.isStageHead = false) : c ∈ g.insertCheckpoints.1.connections := by
  have hk := insertCheckpoints_checkpointed h
  refine (hk.kept c (h.source_lt hc) (h.target_lt hc)).2 ⟨hc, fun hcut => ?_⟩
  rcases hcut with ⟨a, ha, has, -, hdiv, hsa, -⟩ | ⟨-, b, hb, hbh, -, htb⟩
  · obtain rfl := h.eq_of_output ha hx hsa hs
    rw [hstays has] at hdiv
    cases hdiv
  · obtain rfl := h.eq_of_input hb hy htb ht
    rw [hhead] at hbh
    cases hbh

/-- Stage heads read materialized data once the checkpoints are there. -/
theorem isStageBoundary_of_feeds_head (hx : x ∈ g.insertCheckpoints.1.elements)
    (hy : y ∈ g.insertCheckpoints.1.elements) (hhead : y.isStageHead = true)
    (hf : g.insertCheckpoints.1.Feeds x y) : x.isStageBoundary = true := by
  have hk := insertCheckpoints_checkpointed h
  have hyg := hk.mem_old hy (isCheckpoint_eq_false_of_isStageHead hhead)
  obtain ⟨c, hc, hs, ht⟩ := hf
  rcases hk.new x hx with hxg | ⟨hcheck, -⟩
  · by_contra hloose
    rw [Bool.not_eq_true] at hloose
    have hold := (hk.kept c (h.port_lt hxg (Element.mem_portIds.2 (.inr hs)))
      (h.port_lt hyg (Element.mem_portIds.2 (.inl ht)))).1 hc
    exact hold.2 (.inr ⟨⟨x, hxg, hs, hloose⟩, y, hyg, hhead, List.not_mem_nil, ht⟩)
  · rw [Element.isStageBoundary, hcheck, Bool.or_true]

/-- A diverging shuffle feeds checkpoints only. -/
theorem isCheckpoint_of_diverges_feeds (he : e ∈ g.elements) (hs : e.isShuffleBoundary = true)
    (hd : g.diverges e.id = true) (hx : x ∈ g.insertCheckpoints.1.elements)
    (hf : g.insertCheckpoints.1.Feeds e x) : x.isCheckpoint = true := by
  have hk := insertCheckpoints_checkpointed h
  obtain ⟨c, hc, hse, htx⟩ := hf
  rcases hk.new x hx with hxg | ⟨hcheck, -⟩
  · have hold := (hk.kept c (h.port_lt he (Element.mem_portIds.2 (.inr hse)))
      (h.port_lt hxg (Element.mem_portIds.2 (.inl htx)))).1 hc
    have hmat : g.isMaterialized c.source = true := by
      rw [← Bool.not_eq_false]
      exact fun hm => hold.2 (.inl ⟨e, he, hs, List.not_mem_nil, hd, hse, hm⟩)
    exact (isMaterialized_iff h (h.joined c hold.1).1).1 hmat x hxg c.target htx hold.1
  · exact hcheck

end Checkpoints

end FlowGraph
end FlowPlan
