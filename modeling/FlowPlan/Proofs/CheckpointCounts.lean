import FlowPlan.Proofs.CheckpointCuts
import FlowPlan.Proofs.Sites

/-!
How many checkpoints are inserted.

The pass judges a shuffle, and a connection into a stage head, when its turn comes, and by then the
graph has changed.  `insertCheckpoints_count` says that it could as well judge them all in front:
the checkpoints are as many as the ports and the connections that need one in the graph as it was.
`diverges_at_turn` is why, and it holds for any order of the shuffles.
-/

namespace FlowPlan
namespace FlowGraph

variable {g : FlowGraph} {cut : Connection → Prop} {e y : Element}

/-- An output port of a diverging shuffle that feeds something besides checkpoints. -/
def NeedsBehind (g : FlowGraph) (p : PortId) : Prop :=
  ∃ e ∈ g.elements, e.isShuffleBoundary = true ∧ g.diverges e.id = true ∧ p ∈ e.outputIds ∧
    ∃ y ∈ g.elements, y.isCheckpoint = false ∧ ∃ d ∈ y.inputIds, ⟨p, d⟩ ∈ g.connections

/-- The connection leads into a stage head, from something that neither materializes its records nor
is a diverging shuffle. -/
def NeedsBefore (g : FlowGraph) (c : Connection) : Prop :=
  c ∈ g.connections ∧ (∃ y ∈ g.elements, y.isStageHead = true ∧ c.target ∈ y.inputIds) ∧
    ∃ x ∈ g.elements, c.source ∈ x.outputIds ∧ x.isStageBoundary = false ∧
      ¬ (x.isShuffleBoundary = true ∧ g.diverges x.id = true)

/-! ## Behind shuffles -/

/-- The output ports of an element that get a checkpoint if it is a shuffle. -/
def openPorts (g : FlowGraph) (e : Element) : List PortId :=
  if g.diverges e.id then e.outputIds.filter fun p => !g.isMaterialized p else []

theorem mem_openPorts {p : PortId} :
    p ∈ g.openPorts e ↔
      g.diverges e.id = true ∧ p ∈ e.outputIds ∧ g.isMaterialized p = false := by
  unfold openPorts
  by_cases hd : g.diverges e.id = true <;> simp [hd]

section Shuffles

variable (h : g.Coherent)
include h

theorem openPorts_enumerate :
    Enumerates ((g.elements.filter (·.isShuffleBoundary)).flatMap g.openPorts) g.NeedsBehind where
  once := by
    rw [List.nodup_flatMap]
    constructor
    · intro e he
      unfold openPorts
      split
      · exact (h.outputIds_nodup (List.mem_of_mem_filter he)).filter _
      · exact .nil
    · refine ((h.elements_nodup.filter _).imp_of_mem fun {x y} hx hy hne => ?_)
      intro p hpx hpy
      exact hne (h.eq_of_output (List.mem_of_mem_filter hx) (List.mem_of_mem_filter hy)
        (mem_openPorts.1 hpx).2.1 (mem_openPorts.1 hpy).2.1)
  exact := by
    intro p
    simp only [List.mem_flatMap, List.mem_filter, mem_openPorts]
    constructor
    · rintro ⟨e, ⟨he, hs⟩, hd, hp, hm⟩
      have hmat := isMaterialized_iff h (isOutputPort_iff.2 ⟨e, he, hp⟩)
      rw [← Bool.not_eq_true, hmat] at hm
      push Not at hm
      obtain ⟨y, hy, d, hdy, hc, hcheck⟩ := hm
      exact ⟨e, he, hs, hd, hp, y, hy, by simpa using hcheck, d, hdy, hc⟩
    · rintro ⟨e, he, hs, hd, hp, y, hy, hcheck, d, hdy, hc⟩
      refine ⟨e, ⟨he, hs⟩, hd, hp, ?_⟩
      rw [← Bool.not_eq_true, isMaterialized_iff h (isOutputPort_iff.2 ⟨e, he, hp⟩)]
      intro hall
      rw [hall y hy d hdy hc] at hcheck
      cases hcheck

theorem foldl_checkpointBehind_count (he : e ∈ g.elements) {ps : List PortId}
    (hps : ∀ p ∈ ps, p ∈ e.outputIds) (hn : ps.Nodup) {s : FlowGraph × Nat}
    (hk : Checkpointed g cut s.1) (huncut : ∀ c ∈ g.connections, c.source ∈ ps → ¬ cut c) :
    (ps.foldl checkpointBehind s).2 = s.2 + (ps.filter fun p => !g.isMaterialized p).length := by
  induction ps generalizing s cut with
  | nil => rfl
  | cons p ps ih =>
    obtain ⟨hnot, hn⟩ := List.nodup_cons.1 hn
    have hp := hps p List.mem_cons_self
    have hearly := fun c hc (hs : c.source = p) => huncut c hc (hs ▸ List.mem_cons_self)
    have hstep : (checkpointBehind s p).2 = s.2 + if g.isMaterialized p then 0 else 1 := by
      rw [checkpointBehind, hk.isMaterialized_eq h he hp hearly]
      split <;> rfl
    have hfirst := checkpointBehind_checkpointed h hk he hp hearly
    rw [List.foldl_cons, ih (fun q hq => hps q (List.mem_cons_of_mem p hq)) hn hfirst, hstep]
    · rw [List.filter_cons]
      cases g.isMaterialized p
      · simp only [Bool.not_false, Bool.false_eq_true, if_true, if_false, List.length_cons]
        omega
      · rfl
    · rintro c hc hs (hcut | ⟨hsp, -⟩)
      · exact huncut c hc (List.mem_cons_of_mem p hs) hcut
      · exact hnot (hsp ▸ hs)

theorem checkpointShuffle_count {s : FlowGraph × Nat} {rest : List ElementId}
    (he : e ∈ g.elements) (hs : e.isShuffleBoundary = true)
    (hk : Checkpointed g (g.CutBehind (e.id :: rest)) s.1) :
    (checkpointShuffle s e.id).2 = s.2 + (g.openPorts e).length := by
  have hothers := cutBehind_cutsBehindOthers h e rest
  rw [checkpointShuffle, hk.diverges_eq h hothers he hs, hk.coherent.outputsOf_eq (hk.old e he),
    openPorts]
  by_cases hd : g.diverges e.id = true
  · rw [if_pos hd, if_pos hd]
    exact foldl_checkpointBehind_count h he (fun p hp => hp) (h.outputIds_nodup he) hk
      fun c hc hsc hcut => (hothers c hc hcut e he hsc).2 rfl
  · rw [if_neg hd, if_neg hd]
    rfl

theorem foldl_checkpointShuffle_count {es : List Element} {rest : List ElementId}
    (hes : ∀ e ∈ es, e ∈ g.elements ∧ e.isShuffleBoundary = true)
    (hn : (es.map (·.id) ++ rest).Nodup) {s : FlowGraph × Nat}
    (hk : Checkpointed g (g.CutBehind (es.map (·.id) ++ rest)) s.1) :
    ((es.map (·.id)).foldl checkpointShuffle s).2 = s.2 + (es.flatMap g.openPorts).length := by
  induction es generalizing s with
  | nil => rfl
  | cons e es ih =>
    obtain ⟨he, hs⟩ := hes e List.mem_cons_self
    obtain ⟨hnot, hn⟩ := List.nodup_cons.1 hn
    rw [List.map_cons, List.foldl_cons, ih (fun x hx => hes x (List.mem_cons_of_mem e hx)) hn
      (checkpointShuffle_checkpointed h he hs hnot hk), checkpointShuffle_count h he hs hk,
      List.flatMap_cons, List.length_append, Nat.add_assoc]

theorem shuffles_count :
    (((g.elements.filter (·.isShuffleBoundary)).map (·.id)).foldl checkpointShuffle (g, 0)).2 =
      ((g.elements.filter (·.isShuffleBoundary)).flatMap g.openPorts).length := by
  have hn := ids_nodup_of_perm h (.refl (g.elements.filter (·.isShuffleBoundary)))
  have hstart := checkpointed_of_all h (.refl _)
  rw [← List.append_nil ((g.elements.filter (·.isShuffleBoundary)).map (·.id))] at hn hstart
  exact (foldl_checkpointShuffle_count h (fun e he => List.mem_filter.1 he) hn
    (s := (g, 0)) hstart).trans (Nat.zero_add _)

/-- In whatever order the shuffles have their turns, each diverges in its turn if it diverged in the
first place. -/
theorem diverges_at_turn {order before after : List Element}
    (horder : order.Perm (g.elements.filter (·.isShuffleBoundary)))
    (hsplit : order = before ++ e :: after) :
    ((before.map (·.id)).foldl checkpointShuffle (g, 0)).1.diverges e.id = g.diverges e.id := by
  have hmem : ∀ x ∈ order, x ∈ g.elements ∧ x.isShuffleBoundary = true :=
    fun x hx => List.mem_filter.1 (horder.mem_iff.1 hx)
  have hn := ids_nodup_of_perm h horder
  have hstart := checkpointed_of_all h horder
  subst hsplit
  rw [List.map_append, List.map_cons] at hn hstart
  obtain ⟨he, hs⟩ := hmem e (by simp)
  have hk := foldl_checkpointShuffle_checkpointed h
    (fun x hx => hmem x (List.mem_append_left _ hx)) hn (s := (g, 0)) hstart
  exact hk.diverges_eq h (cutBehind_cutsBehindOthers h e _) he hs

end Shuffles

/-! ## Before stage heads -/

/-- The connections into an element that get a checkpoint if it is a stage head. -/
def openInto (g : FlowGraph) (y : Element) : List Connection :=
  g.connections.filter fun c => y.inputIds.contains c.target &&
    (g.owner? c.source).any fun x =>
      !x.isStageBoundary && !(x.isShuffleBoundary && g.diverges x.id)

section Heads

variable (h : g.Coherent)
include h

theorem mem_openInto {c : Connection} :
    c ∈ g.openInto y ↔ c ∈ g.connections ∧ c.target ∈ y.inputIds ∧
      ∃ x ∈ g.elements, c.source ∈ x.outputIds ∧ x.isStageBoundary = false ∧
        ¬ (x.isShuffleBoundary = true ∧ g.diverges x.id = true) := by
  rw [openInto, List.mem_filter]
  refine and_congr_right fun hc => ?_
  obtain ⟨x, hx, hs⟩ := h.source_mem hc
  rw [h.owner?_eq_some hx (Element.mem_portIds.2 (.inr hs)), Option.any_some, Bool.and_eq_true,
    List.contains_iff_mem]
  have hopen : (!x.isStageBoundary && !(x.isShuffleBoundary && g.diverges x.id)) = true ↔
      x.isStageBoundary = false ∧ ¬ (x.isShuffleBoundary = true ∧ g.diverges x.id = true) := by
    rw [Bool.and_eq_true, Bool.not_eq_true', Bool.not_eq_true', Bool.and_eq_false_iff, not_and_or,
      Bool.not_eq_true, Bool.not_eq_true]
  rw [hopen]
  refine and_congr_right fun _ => ⟨fun hx' => ⟨x, hx, hs, hx'⟩, ?_⟩
  rintro ⟨x', hx', hs', hopen'⟩
  obtain rfl := h.eq_of_output hx' hx hs' hs
  exact hopen'

theorem openInto_enumerate {es : List Element} (hn : es.Nodup)
    (hes : ∀ y, y ∈ es ↔ y ∈ g.elements ∧ y.isStageHead = true) :
    Enumerates (es.flatMap g.openInto) g.NeedsBefore where
  once := by
    rw [List.nodup_flatMap]
    refine ⟨fun y _ => h.connectedOnce.filter _, hn.imp_of_mem fun {x y} hx hy hne c hcx hcy => ?_⟩
    exact hne (h.eq_of_input ((hes x).1 hx).1 ((hes y).1 hy).1 ((mem_openInto h).1 hcx).2.1
      ((mem_openInto h).1 hcy).2.1)
  exact := by
    intro c
    simp only [List.mem_flatMap, mem_openInto h, hes]
    constructor
    · rintro ⟨y, ⟨hy, hhead⟩, hc, ht, hopen⟩
      exact ⟨hc, ⟨y, hy, hhead, ht⟩, hopen⟩
    · rintro ⟨hc, ⟨y, hy, hhead, ht⟩, hopen⟩
      exact ⟨y, ⟨hy, hhead⟩, hc, ht, hopen⟩

open Classical in
theorem foldl_checkpointOn_count (hy : y ∈ g.elements) {cs : List Connection} (hn : cs.Nodup)
    (hinto : ∀ c ∈ cs, c.target ∈ y.inputIds) {s : FlowGraph × Nat} (hk : Checkpointed g cut s.1)
    (hcs : ∀ c ∈ cs, c ∈ s.1.connections) :
    (cs.foldl checkpointOn s).2 = s.2 + (cs.filter fun c => g.IsLoose c).length := by
  induction cs generalizing s cut with
  | nil => rfl
  | cons c cs ih =>
    obtain ⟨hnot, hn⟩ := List.nodup_cons.1 hn
    have hc := hcs c List.mem_cons_self
    have htc := hinto c List.mem_cons_self
    obtain ⟨z, hz, hsz⟩ := hk.coherent.source_mem hc
    have hloose : g.IsLoose c ↔ z.isStageBoundary = false := by
      constructor
      · rintro ⟨x, hx, hsx, hxb⟩
        obtain rfl := hk.coherent.eq_of_output (hk.old x hx) hz hsx hsz
        exact hxb
      · intro hzb
        refine ⟨z, hk.mem_old hz ?_, hsz, hzb⟩
        rw [← Bool.not_eq_true]
        intro hcheck
        rw [Element.isStageBoundary, hcheck, Bool.or_true] at hzb
        cases hzb
    have hstep : checkpointOn s c =
        if g.IsLoose c then (s.1.insertPseudoOn c .stage, s.2 + 1) else s := by
      rw [checkpointOn, hk.coherent.owner?_eq_some hz (Element.mem_portIds.2 (.inr hsz)),
        Option.any_some]
      by_cases hzb : z.isStageBoundary = true <;> simp [hloose, hzb]
    have hfirst := checkpointOn_checkpointed h hk hc hy htc
    have hstays : ∀ c' ∈ cs, c' ∈ (checkpointOn s c).1.connections := by
      intro c' hc'
      have hold := hcs c' (List.mem_cons_of_mem c hc')
      rw [hstep]
      split
      · refine (mem_insertPseudoOn hk.coherent hc .stage).2 (.inl ⟨hold, ?_⟩)
        rintro rfl
        exact hnot hc'
      · exact hold
    rw [List.foldl_cons, ih hn (fun c' hc' => hinto c' (List.mem_cons_of_mem c hc')) hfirst hstays,
      List.filter_cons, hstep]
    by_cases hl : g.IsLoose c
    · simp only [hl, decide_true, if_true, List.length_cons]
      omega
    · simp only [hl, decide_false, Bool.false_eq_true, if_false]

/-- When a stage head has its turn, those connections are there that need a checkpoint in the
first place. -/
theorem mem_incoming_iff_openInto {s : FlowGraph} {rest : List ElementId} (hy : y ∈ g.elements)
    (hhead : y.isStageHead = true)
    (hk : Checkpointed g (fun c => g.CutBehind [] c ∨ g.CutBefore (y.id :: rest) c) s)
    {c : Connection} : (c ∈ s.incoming y.id ∧ g.IsLoose c) ↔ c ∈ g.openInto y := by
  rw [hk.coherent.mem_incoming (hk.old y hy), mem_openInto h]
  constructor
  · rintro ⟨⟨hc, ht⟩, x, hx, hs, hxb⟩
    have hold := (hk.kept c (h.port_lt hx (Element.mem_portIds.2 (.inr hs)))
      (h.port_lt hy (Element.mem_portIds.2 (.inl ht)))).1 hc
    refine ⟨hold.1, ht, x, hx, hs, hxb, fun hdiv => hold.2 (.inl ?_)⟩
    -- A port that feeds the stage head does not feed checkpoints only.
    refine ⟨x, hx, hdiv.1, List.not_mem_nil, hdiv.2, hs, ?_⟩
    rw [← Bool.not_eq_true, isMaterialized_iff h (h.joined c hold.1).1]
    intro hall
    have hcheck := hall y hy c.target ht hold.1
    rw [isCheckpoint_eq_false_of_isStageHead hhead] at hcheck
    cases hcheck
  · rintro ⟨hc, ht, x, hx, hs, hxb, hstays⟩
    refine ⟨⟨(hk.kept c (h.source_lt hc) (h.target_lt hc)).2 ⟨hc, ?_⟩, ht⟩, x, hx, hs, hxb⟩
    rintro (⟨a, ha, has, -, hdiv, hsa, -⟩ | ⟨-, z, hz, -, hturn, htz⟩)
    · obtain rfl := h.eq_of_output ha hx hsa hs
      exact hstays ⟨has, hdiv⟩
    · obtain rfl := h.eq_of_input hz hy htz ht
      exact hturn List.mem_cons_self

theorem checkpointHead_count {s : FlowGraph × Nat} {rest : List ElementId} (hy : y ∈ g.elements)
    (hhead : y.isStageHead = true)
    (hk : Checkpointed g (fun c => g.CutBehind [] c ∨ g.CutBefore (y.id :: rest) c) s.1) :
    (checkpointHead s y.id).2 = s.2 + (g.openInto y).length := by
  classical
  have hys := hk.old y hy
  have hincoming := fun c => hk.coherent.mem_incoming hys (c := c)
  have hn := incoming_nodup hk.coherent hys
  rw [checkpointHead, foldl_checkpointOn_count h hy hn (fun c hc => ((hincoming c).1 hc).2) hk
    fun c hc => ((hincoming c).1 hc).1]
  refine congrArg (s.2 + ·) (List.Perm.length_eq ?_)
  refine (List.perm_ext_iff_of_nodup (hn.filter _) (h.connectedOnce.filter _)).2 fun c => ?_
  rw [List.mem_filter, decide_eq_true_iff]
  exact mem_incoming_iff_openInto h hy hhead hk

theorem foldl_checkpointHead_count {es : List Element} {rest : List ElementId}
    (hes : ∀ y ∈ es, y ∈ g.elements ∧ y.isStageHead = true)
    (hn : (es.map (·.id) ++ rest).Nodup) {s : FlowGraph × Nat}
    (hk : Checkpointed g (fun c => g.CutBehind [] c ∨ g.CutBefore (es.map (·.id) ++ rest) c) s.1) :
    ((es.map (·.id)).foldl checkpointHead s).2 = s.2 + (es.flatMap g.openInto).length := by
  induction es generalizing s with
  | nil => rfl
  | cons y es ih =>
    obtain ⟨hy, hhead⟩ := hes y List.mem_cons_self
    obtain ⟨hnot, hn⟩ := List.nodup_cons.1 hn
    rw [List.map_cons, List.foldl_cons, ih (fun x hx => hes x (List.mem_cons_of_mem y hx)) hn
      (checkpointHead_turn h hy hhead hnot hk), checkpointHead_count h hy hhead hk,
      List.flatMap_cons, List.length_append, Nat.add_assoc]

theorem count_insertCheckpoints :
    ∃ conns, Enumerates conns g.NeedsBefore ∧ g.insertCheckpoints.2 =
      ((g.elements.filter (·.isShuffleBoundary)).flatMap g.openPorts).length + conns.length := by
  have hk := shuffles_checkpointed h (.refl _)
  have hcount := shuffles_count h
  rw [insertCheckpoints, idsWhere]
  generalize ((g.elements.filter (·.isShuffleBoundary)).map (·.id)).foldl checkpointShuffle (g, 0)
    = s at hk hcount
  have hn := ids_nodup_of_perm hk.coherent (.refl (s.1.elements.filter (·.isStageHead)))
  have hstart := hk.before_heads
  rw [← List.append_nil ((s.1.elements.filter (·.isStageHead)).map (·.id))] at hn hstart
  refine ⟨_, openInto_enumerate h (hk.coherent.elements_nodup.filter _) fun y => hk.mem_heads, ?_⟩
  rw [idsWhere, foldl_checkpointHead_count h (fun y hy => hk.mem_heads.1 hy) hn hstart, hcount]

/-- A port that is connected still is. -/
theorem exists_target_insertCheckpoints {p d : PortId} (hc : ⟨p, d⟩ ∈ g.connections) :
    ∃ d', ⟨p, d'⟩ ∈ g.insertCheckpoints.1.connections := by
  have hk := insertCheckpoints_checkpointed h
  by_cases hcut : g.IsCut ⟨p, d⟩
  · obtain ⟨a, -, ha⟩ := hk.led _ hc hcut
    exact ⟨a, ha⟩
  · exact ⟨d, (hk.kept _ (h.source_lt hc) (h.target_lt hc)).2 ⟨hc, hcut⟩⟩

end Heads

/-- Checkpoints are inserted where the graph as it was needs them.  In any order of the shuffles,
each is found to diverge in its turn exactly if it does so in the graph as it was; the checkpoints
are as many as the ports behind diverging shuffles and the connections into stage heads that need
one; and afterwards diverging shuffles feed checkpoints only, from all ports that were connected,
and stage heads are fed by stage boundaries only. -/
theorem insertCheckpoints_count (h : g.WellFormed) :
    let k := g.insertCheckpoints.1
    (∀ order : List Element, order.Perm (g.elements.filter (·.isShuffleBoundary)) →
      ∀ before e after, order = before ++ e :: after →
        ((before.map (·.id)).foldl checkpointShuffle (g, 0)).1.diverges e.id = g.diverges e.id) ∧
      (∃ ports conns, Enumerates ports g.NeedsBehind ∧ Enumerates conns g.NeedsBefore ∧
        g.insertCheckpoints.2 = ports.length + conns.length) ∧
      (∀ e ∈ g.elements, e.isShuffleBoundary = true → g.diverges e.id = true →
        e ∈ k.elements ∧ (∀ x ∈ k.elements, k.Feeds e x → x.isCheckpoint = true) ∧
          ∀ p ∈ e.outputIds, (∃ d, ⟨p, d⟩ ∈ g.connections) → ∃ d, ⟨p, d⟩ ∈ k.connections) ∧
      ∀ y ∈ k.elements, y.isStageHead = true →
        ∀ x ∈ k.elements, k.Feeds x y → x.isStageBoundary = true := by
  intro k
  have hg := h.coherent
  refine ⟨?_, ?_, ?_, ?_⟩
  · intro order horder before e after hsplit
    exact diverges_at_turn hg horder hsplit
  · obtain ⟨conns, hconns, hcount⟩ := count_insertCheckpoints hg
    exact ⟨_, conns, openPorts_enumerate hg, hconns, hcount⟩
  · intro e he hs hd
    refine ⟨(insertCheckpoints_checkpointed hg).old e he, ?_, ?_⟩
    · exact fun x hx hf => isCheckpoint_of_diverges_feeds hg he hs hd hx hf
    · rintro p - ⟨d, hc⟩
      exact exists_target_insertCheckpoints hg hc
  · intro y hy hhead x hx hf
    exact isStageBoundary_of_feeds_head hg hx hy hhead hf

/-- Two shuffles in a row, the first with a port that is materialized already, and a stage head that
merges the second with something else. -/
def mergedHead : FlowGraph :=
  let desc : OperatorDesc := { name := "op", kind := "extract", resources := [] }
  assemble
    [.input "i" "Record",
      .operator "s" desc [.plain "in" "Record"] [.plain "a" "Record", .plain "b" "Record"] .shuffle,
      .pseudo "c" "Record" .stage,
      .operator "t" desc [.plain "in" "Record"] [.plain "out" "Record"] .shuffle,
      .operator "m" desc [.plain "in" "Record"] [.plain "out" "Record"] .none,
      .operator "h" desc [.plain "l" "Record", .plain "r" "Record"] [.plain "out" "Record"] .stage,
      .output "o" "Record", .output "q" "Record"]
    [(0, 1), (2, 6), (3, 4), (5, 13), (7, 10), (0, 8), (9, 11), (12, 14)]

theorem mergedHead_wellFormed : mergedHead.WellFormed :=
  assemble_wellFormed _ (by simp)

set_option maxRecDepth 10000 in
/-- Behind the first port of `s`, behind `t`, and between `m` and `h`. -/
theorem mergedHead_count : mergedHead.WellFormed ∧
    ∃ ports conns, Enumerates ports mergedHead.NeedsBehind ∧
      Enumerates conns mergedHead.NeedsBefore ∧ ports.length + conns.length = 3 := by
  obtain ⟨-, ⟨ports, conns, hports, hconns, hcount⟩, -⟩ :=
    insertCheckpoints_count mergedHead_wellFormed
  exact ⟨mergedHead_wellFormed, ports, conns, hports, hconns, hcount ▸ by decide +kernel⟩

end FlowGraph
end FlowPlan
