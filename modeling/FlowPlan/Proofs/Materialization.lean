import FlowPlan.Proofs.StageElements

/-!
Data goes from one stage to another only where it is materialized.

A connection of the flow graph joins two elements of one block, or a map block to a reduce block
that it shuffles into, and either way the blocks share a stage.  So what passes from stage to stage
has gone through a checkpoint, which is what `stages_meet_at_checkpoints` says.  It holds for every
coherent flow graph, in normal form or not: blocks are components of one side, the reduce side is
closed under what follows it up to the next boundary, and a shuffle joins the two blocks in any
case.
-/

namespace FlowPlan

/-- A defect that can be found at a single link. -/
def Defect.isOfLink : Defect → Bool
  | .materializedShuffle _ _ => true
  | .entersBesideShuffle _ _ _ => true
  | .notFromMap _ _ => true
  | .unmaterialized _ _ _ => true
  | _ => false

namespace StageGraph

open FlowGraph Relation

variable {g : FlowGraph} {b b' : Block} {x y : Element}

/-! ## Blocks are closed under connections -/

/-- A neighbour on the same side is in the same component. -/
theorem mem_component_of_neighbour {neighbours : ElementId → List ElementId}
    {side : ElementId → Option BlockKind} {nodes : List ElementId}
    {part : BlockKind × List ElementId} {i j : ElementId}
    (hsymm : ∀ i ∈ nodes, ∀ j ∈ nodes, j ∈ neighbours i → i ∈ neighbours j)
    (hpart : part ∈ components neighbours side nodes) (hi : i ∈ part.2) (hj : j ∈ nodes)
    (hn : j ∈ neighbours i) (hside : side j = some part.1) : j ∈ part.2 := by
  induction nodes using components.induct neighbours side with
  | case1 => cases hj
  | case2 e rest hnone ih =>
    rw [components, hnone] at hpart
    refine ih (fun i hi j hj => hsymm i (List.mem_cons_of_mem e hi) j (List.mem_cons_of_mem e hj))
      hpart ((List.mem_cons.1 hj).resolve_left ?_)
    intro heq
    rw [heq, hnone] at hside
    cases hside
  | case3 e rest kind hsome next members ih =>
    rw [components, hsome] at hpart
    have hin : ∀ k, k ∈ members ↔ ReflTransGen (Search.Step next rest) e k := by
      intro k
      simp only [members, Search.mem_breadthFirst, List.mem_singleton, exists_eq_left]
    -- What is next to a member on this side is a member.
    have hclosed : ∀ k ∈ members, ∀ m ∈ e :: rest, m ∈ neighbours k → side m = some kind →
        m ∈ members := by
      intro k hk m hm hnext hkind
      rcases List.mem_cons.1 hm with rfl | hm
      · exact (hin m).2 .refl
      · exact (hin m).2 (((hin k).1 hk).tail ⟨List.mem_filter.2 ⟨hnext, by simpa using hkind⟩, hm⟩)
    rcases List.mem_cons.1 hpart with rfl | hpart
    · have hk : i ∈ members := of_decide_eq_true (List.mem_filter.1 hi).2
      exact List.mem_filter.2 ⟨hj, decide_eq_true (hclosed i hk j hj hn hside)⟩
    · obtain ⟨hsub, -, hkind⟩ := mem_components hpart
      obtain ⟨hirest, hiout⟩ := List.mem_filter.1 (hsub.subset hi)
      have hi' : i ∈ e :: rest := List.mem_cons_of_mem e hirest
      have hjout : j ∉ members := by
        intro hjm
        have heq : some part.1 = some kind :=
          hside.symm.trans (side_of_mem_breadthFirst hsome hjm)
        refine of_decide_eq_true hiout (hclosed j hjm i hi' (hsymm i hi' j hj hn) ?_)
        exact (hkind i hi).trans heq
      have hjrest : j ∈ rest := by
        refine (List.mem_cons.1 hj).resolve_left fun heq => hjout ?_
        exact heq ▸ (hin e).2 .refl
      refine ih (fun i hi j hj => hsymm i ?_ j ?_) hpart
        (List.mem_filter.2 ⟨hjrest, decide_eq_true hjout⟩)
      · exact List.mem_cons_of_mem e (List.mem_filter.1 hi).1
      · exact List.mem_cons_of_mem e (List.mem_filter.1 hj).1

theorem mem_neighbours (h : g.Coherent) (hx : x ∈ g.elements) (hy : y ∈ g.elements) :
    y.id ∈ g.neighbours x.id ↔ g.Feeds x y ∨ g.Feeds y x := by
  rw [neighbours, List.mem_append, h.mem_successors hx, h.mem_predecessors hx]
  constructor
  · intro hmem
    rcases hmem with ⟨z, hz, hid, hf⟩ | ⟨z, hz, hid, hf⟩
    · exact .inl (h.eq_of_id_eq hz hy hid ▸ hf)
    · exact .inr (h.eq_of_id_eq hz hy hid ▸ hf)
  · intro hmem
    exact hmem.imp (fun hf => ⟨y, hy, rfl, hf⟩) fun hf => ⟨y, hy, rfl, hf⟩

theorem side_of_mem_innerBlocks (hb : b ∈ innerBlocks g) {i : ElementId} (hi : i ∈ b.elements) :
    g.side? g.reduceSide i = some b.kind := by
  obtain ⟨id, part, hpart, rfl⟩ := mem_innerBlocks hb
  exact (mem_components hpart).2.2 i hi

/-- The elements of reduce blocks are the reduce side. -/
theorem mem_reduceSide_iff_isReduce (hb : b ∈ innerBlocks g) {i : ElementId}
    (hi : i ∈ b.elements) : i ∈ g.reduceSide ↔ b.isReduce = true := by
  have hside := side_of_mem_innerBlocks hb hi
  unfold FlowGraph.side? at hside
  rw [Block.isReduce, beq_iff_eq]
  by_cases hr : i ∈ g.reduceSide
  · rw [if_pos hr] at hside
    exact iff_of_true hr (Option.some.inj hside).symm
  · rw [if_neg hr] at hside
    refine iff_of_false hr fun hk => ?_
    rw [hk] at hside
    split at hside
    · cases hside
    · cases hside

theorem isMap_eq_not_isReduce (hb : b ∈ innerBlocks g) : b.isMap = !b.isReduce := by
  rw [Block.isMap, Block.isReduce]
  rcases kind_of_mem_innerBlocks hb with hk | hk
  · rw [hk]
    rfl
  · rw [hk]
    rfl

/-- A connection within one side does not leave its block. -/
theorem eq_of_feeds (h : g.Coherent) (hb : b ∈ innerBlocks g) (hb' : b' ∈ innerBlocks g)
    (hx : x ∈ g.elements) (hy : y ∈ g.elements) (hxb : x.id ∈ b.elements) (hyb : y.id ∈ b'.elements)
    (hf : g.Feeds x y) (hside : b.isReduce = b'.isReduce) : b = b' := by
  have hkind : b.kind = b'.kind := by
    rw [Block.isReduce, Block.isReduce] at hside
    rcases kind_of_mem_innerBlocks hb with hk | hk <;>
      rcases kind_of_mem_innerBlocks hb' with hk' | hk' <;> rw [hk, hk'] at hside ⊢
    · cases hside
    · cases hside
  refine eq_of_mem_elements h (mem_blocksOf.2 (.inr (.inl hb))) (mem_blocksOf.2 (.inr (.inl hb')))
    (i := y.id) ?_ hyb
  have hyside := side_of_mem_innerBlocks hb' hyb
  rw [← hkind] at hyside
  obtain ⟨id, part, hpart, rfl⟩ := mem_innerBlocks hb
  refine mem_component_of_neighbour ?_ hpart hxb (FlowGraph.mem_elementIds.2 ⟨y, hy, rfl⟩)
    ((mem_neighbours h hx hy).2 (.inl hf)) hyside
  intro i hi j hj hn
  obtain ⟨z, hz, rfl⟩ := FlowGraph.mem_elementIds.1 hi
  obtain ⟨w, hw, rfl⟩ := FlowGraph.mem_elementIds.1 hj
  exact (mem_neighbours h hw hz).2 ((mem_neighbours h hz hw).1 hn).symm

/-! ## The reduce side is closed under what follows it -/

theorem mem_reduceSide_of_feeds (h : g.Coherent) (hx : x ∈ g.elements) (hy : y ∈ g.elements)
    (hr : x.id ∈ g.reduceSide) (hf : g.Feeds x y) (hb : y.isBoundary = false) :
    y.id ∈ g.reduceSide := by
  obtain ⟨z, hz, hnode, hpath⟩ := Search.mem_reach.1 hr
  refine Search.mem_reach.2 ⟨z, hz, hnode, hpath.tail ⟨List.mem_filter.2 ⟨?_, ?_⟩, ?_⟩⟩
  · exact (h.mem_successors hx).2 ⟨y, hy, rfl, hf⟩
  · rw [h.isBoundary_eq hy, hb]
    rfl
  · exact FlowGraph.mem_elementIds.2 ⟨y, hy, rfl⟩

/-- An element of a map block is no boundary. -/
theorem isBoundary_eq_false_of_isMap (h : g.Coherent) (hb : b ∈ innerBlocks g)
    (hmap : b.isReduce = false) (hx : x ∈ g.elements) (hxb : x.id ∈ b.elements) :
    x.isBoundary = false := by
  have hside := side_of_mem_innerBlocks hb hxb
  have hr : x.id ∉ g.reduceSide := by
    rw [mem_reduceSide_iff_isReduce hb hxb, hmap]
    exact Bool.false_ne_true
  unfold FlowGraph.side? at hside
  rw [if_neg hr, h.isBoundary_eq hx] at hside
  by_contra hbound
  rw [Bool.not_eq_false] at hbound
  rw [if_pos hbound] at hside
  cases hside

/-- Nothing goes straight from a reduce block to a map block. -/
theorem isReduce_of_feeds (h : g.Coherent) (hb : b ∈ innerBlocks g) (hb' : b' ∈ innerBlocks g)
    (hx : x ∈ g.elements) (hy : y ∈ g.elements) (hxb : x.id ∈ b.elements) (hyb : y.id ∈ b'.elements)
    (hf : g.Feeds x y) (hr : b.isReduce = true) : b'.isReduce = true := by
  by_contra hmap
  rw [Bool.not_eq_true] at hmap
  have hbound := isBoundary_eq_false_of_isMap h hb' hmap hy hyb
  have hxr := (mem_reduceSide_iff_isReduce hb hxb).2 hr
  have hyr := mem_reduceSide_of_feeds h hx hy hxr hf hbound
  rw [mem_reduceSide_iff_isReduce hb' hyb, hmap] at hyr
  cases hyr

/-! ## Direct links -/

/-- What is marked as found directly was to be found there from the start. -/
theorem mem_pending_of_direct {unmet : List PortId} {pending : List (PortId × Bool)} {p : PortId}
    (hp : (p, true) ∈ resolve g unmet pending) : (p, true) ∈ pending := by
  induction unmet, pending using resolve.induct g with
  | case1 unmet => simp [resolve] at hp
  | case2 unmet r direct pending hr hnone ih =>
    rw [resolve, dif_pos hr, hnone] at hp
    exact List.mem_cons_of_mem _ (ih hp)
  | case3 unmet r direct pending hr e he hcheck ih =>
    rw [resolve, dif_pos hr, he] at hp
    simp only [hcheck, if_true] at hp
    rcases List.mem_append.1 (ih hp) with hbehind | hrest
    · simp at hbehind
    · exact List.mem_cons_of_mem _ hrest
  | case4 unmet r direct pending hr e he hcheck ih =>
    rw [resolve, dif_pos hr, he] at hp
    simp only [hcheck, Bool.false_eq_true, if_false, List.mem_cons] at hp
    rcases hp with heq | hp
    · exact heq ▸ List.mem_cons_self
    · exact List.mem_cons_of_mem _ (ih hp)
  | case5 unmet r direct pending hr ih =>
    rw [resolve, dif_neg hr] at hp
    exact List.mem_cons_of_mem _ (ih hp)

/-- The elements at the ends of a link. -/
theorem exists_ends_of_mem_linksOf (h : g.Coherent) {l : Link} (hl : l ∈ linksOf g) :
    (∃ x ∈ g.elements, x.id ∈ l.source.elements ∧ l.connection.source ∈ x.outputIds) ∧
      ∃ y ∈ g.elements, y.id ∈ l.target.elements ∧ l.connection.target ∈ y.inputIds := by
  obtain ⟨hb, hout, htarget, -, hfind⟩ := mem_linksOf.1 hl
  obtain ⟨x, hx, hxb, hs⟩ := exists_of_mem_outputs h hb hout
  have hport : l.connection.target ∈ l.target.ports :=
    List.contains_iff_mem.1 (by simpa using List.find?_some hfind)
  obtain ⟨y, hy, hyb, hpy⟩ := exists_of_mem_ports h (target_mem_blocksOf hl) hport
  refine ⟨⟨x, hx, hxb, hs⟩, y, hy, hyb, ?_⟩
  have hcarried := ((mem_targets h (isOutputPort_iff.2 ⟨x, hx, hs⟩)).1
    (List.mem_map_of_mem htarget)).2
  obtain ⟨w, hc, -⟩ := exists_last_connection hcarried
  exact h.target_mem_inputIds (c := ⟨w, l.connection.target⟩) hc hy hpy

theorem connection_of_direct (h : g.Coherent) {l : Link} (hl : l ∈ linksOf g)
    (hd : l.direct = true) : l.connection ∈ g.connections := by
  obtain ⟨⟨x, hx, -, hs⟩, -⟩ := exists_ends_of_mem_linksOf h hl
  obtain ⟨-, -, htarget, -⟩ := mem_linksOf.1 hl
  rw [hd] at htarget
  obtain ⟨p, hp, heq⟩ := List.mem_map.1 (mem_pending_of_direct htarget)
  have hp' : p = l.connection.target := (Prod.mk.inj heq).1
  exact (h.mem_opposites (isOutputPort_iff.2 ⟨x, hx, hs⟩)).1 (hp' ▸ hp)

/-- A connection between two blocks is a link. -/
theorem exists_link_of_connection (h : g.Coherent) (hb : b ∈ blocksOf g) (hb' : b' ∈ blocksOf g)
    (hne : b ≠ b') {c : Connection} (hc : c ∈ g.connections) (hx : x ∈ g.elements)
    (hy : y ∈ g.elements) (hs : c.source ∈ x.outputIds) (ht : c.target ∈ y.inputIds)
    (hxb : x.id ∈ b.elements) (hyb : y.id ∈ b'.elements) :
    ∃ l ∈ linksOf g, l.connection = c ∧ l.source = b ∧ l.target = b' := by
  have happart : ¬ ∃ b ∈ (plan g).1.blocks, x.id ∈ b.elements ∧ y.id ∈ b.elements := by
    intro hsame
    obtain ⟨k, hk, hxk, hyk⟩ := hsame
    exact hne ((eq_of_mem_elements h hb hk hxb hxk).trans (eq_of_mem_elements h hk hb' hyk hyb))
  have hmem : c ∈ (plan g).1.connections :=
    (mem_connections_plan h hx hy (isCheckpoint_of_mem_elements h hb hx hxb)
      (isCheckpoint_of_mem_elements h hb' hy hyb) hs ht).2 ⟨.direct hc, happart⟩
  obtain ⟨l, hl, rfl⟩ := List.mem_map.1 hmem
  obtain ⟨⟨x', hx', hxl, hs'⟩, y', hy', hyl, ht'⟩ := exists_ends_of_mem_linksOf h hl
  obtain rfl := h.eq_of_output hx hx' hs hs'
  obtain rfl := h.eq_of_input hy hy' ht ht'
  exact ⟨l, hl, rfl, eq_of_mem_elements h (source_mem_blocksOf hl) hb hxl hxb,
    eq_of_mem_elements h (target_mem_blocksOf hl) hb' hyl hyb⟩

/-! ## Stages -/

/-- Each of the two blocks is run by one stage, and that is the same for both. -/
def ShareStage (sg : StageGraph) (u d : BlockId) : Prop :=
  ∃ s ∈ sg.stages, ∀ s' ∈ sg.stages, (u ∈ s'.blocks ↔ s' = s) ∧ (d ∈ s'.blocks ↔ s' = s)

theorem shareStage_of_leaderOf_eq (hb : b ∈ blocksOf g) (hb' : b' ∈ blocksOf g)
    (hs : b.isStaged = true) (hs' : b'.isStaged = true)
    (heq : leaderOf g b.id = leaderOf g b'.id) : (plan g).1.ShareStage b.id b'.id := by
  refine ⟨_, stage_mem hb hs, fun s hmem => ?_⟩
  obtain ⟨leader, -, rfl⟩ := mem_stages hmem
  have hone : leaderOf g b.id = leader ↔
      stageOfLeader g leader ((stageLeaders g).idxOf leader + 1)
        = stageOfLeader g (leaderOf g b.id) ((stageLeaders g).idxOf (leaderOf g b.id) + 1) := by
    constructor
    · intro hl
      rw [hl]
    · intro hstage
      have hown := (mem_blocks hb (n := (stageLeaders g).idxOf (leaderOf g b.id) + 1)).2 ⟨hs, rfl⟩
      rw [← hstage] at hown
      exact ((mem_blocks hb).1 hown).2
  rw [mem_blocks hb, mem_blocks hb', hs, hs', ← heq]
  simp only [true_and, hone, and_self]

/-- The ends of a connection between elements of map and reduce blocks are run by one stage. -/
theorem leaderOf_eq_of_connection (h : g.Coherent) (hb : b ∈ innerBlocks g)
    (hb' : b' ∈ innerBlocks g) {c : Connection} (hc : c ∈ g.connections) (hx : x ∈ g.elements)
    (hy : y ∈ g.elements) (hs : c.source ∈ x.outputIds) (ht : c.target ∈ y.inputIds)
    (hxb : x.id ∈ b.elements) (hyb : y.id ∈ b'.elements) :
    leaderOf g b.id = leaderOf g b'.id := by
  have hf : g.Feeds x y := ⟨c, hc, hs, ht⟩
  by_cases hside : b.isReduce = b'.isReduce
  · rw [eq_of_feeds h hb hb' hx hy hxb hyb hf hside]
  · have hmap : b.isReduce = false := by
      rw [← Bool.not_eq_true]
      intro hr
      exact hside (hr.trans (isReduce_of_feeds h hb hb' hx hy hxb hyb hf hr).symm)
    have hreduce : b'.isReduce = true := by
      rw [hmap] at hside
      simpa using hside
    have hne : b ≠ b' := fun heq => hside (by rw [heq])
    obtain ⟨l, hl, -, rfl, rfl⟩ := exists_link_of_connection h (mem_blocksOf.2 (.inr (.inl hb)))
      (mem_blocksOf.2 (.inr (.inl hb'))) hne hc hx hy hs ht hxb hyb
    refine leaderOf_eq_of_shuffle hl ?_
    rw [Link.isShuffle, isMap_eq_not_isReduce hb, hmap, hreduce]
    rfl

/-- A way that passes no checkpoint stays in the stage where it begins. -/
theorem leaderOf_eq_of_carries (h : g.Coherent) (hb : b ∈ innerBlocks g) (hb' : b' ∈ innerBlocks g)
    {u d : PortId} (hp : g.Carries (·.isCheckpoint = false) u d) (hx : x ∈ g.elements)
    (hy : y ∈ g.elements) (hu : u ∈ x.outputIds) (hd : d ∈ y.inputIds) (hxb : x.id ∈ b.elements)
    (hyb : y.id ∈ b'.elements) : leaderOf g b.id = leaderOf g b'.id := by
  induction hp generalizing b x with
  | direct hc => exact leaderOf_eq_of_connection h hb hb' hc hx hy hu hd hxb hyb
  | @through u a o d e first he hv ha ho rest ih =>
    obtain ⟨k, hk, hek⟩ := exists_block h he hv
    -- What is passed has ports on both sides, so its block is neither the first nor the last.
    have hinner : k ∈ innerBlocks g := by
      rcases mem_blocksOf.1 hk with rfl | hk | rfl
      · obtain ⟨z, hz, hid, hin⟩ := exists_of_mem_inputBlock hek
        rw [← h.eq_of_id_eq hz he hid, inputIds_of_isInput h hz hin] at ha
        cases ha
      · exact hk
      · obtain ⟨z, hz, hid, hout⟩ := exists_of_mem_outputBlock hek
        rw [← h.eq_of_id_eq hz he hid, outputIds_of_isOutput h hz hout] at ho
        cases ho
    exact (leaderOf_eq_of_connection h hb hinner first hx he hu ha hxb hek).trans
      (ih hinner he ho hd hek)

theorem mem_innerBlocks_of_isStaged (hb : b ∈ blocksOf g) (hs : b.isStaged = true) :
    b ∈ innerBlocks g := mem_staged.1 (List.mem_filter.2 ⟨hb, hs⟩)

/-- All ways between two stages pass a checkpoint. -/
theorem not_carries_of_stages (h : g.Coherent) {l : Link} (hl : l ∈ linksOf g) {s s' : Stage}
    (hs : s ∈ (plan g).1.stages) (hs' : s' ∈ (plan g).1.stages) (hu : l.source.id ∈ s.blocks)
    (hd : l.target.id ∈ s'.blocks) (hne : s ≠ s') :
    ¬ g.Carries (·.isCheckpoint = false) l.connection.source l.connection.target := by
  obtain ⟨leader, -, rfl⟩ := mem_stages hs
  obtain ⟨leader', -, rfl⟩ := mem_stages hs'
  obtain ⟨hsource, rfl⟩ := (mem_blocks (source_mem_blocksOf hl)).1 hu
  obtain ⟨htarget, rfl⟩ := (mem_blocks (target_mem_blocksOf hl)).1 hd
  obtain ⟨⟨x, hx, hxb, hsx⟩, y, hy, hyb, hty⟩ := exists_ends_of_mem_linksOf h hl
  intro hp
  refine hne ?_
  rw [leaderOf_eq_of_carries h (mem_innerBlocks_of_isStaged (source_mem_blocksOf hl) hsource)
    (mem_innerBlocks_of_isStaged (target_mem_blocksOf hl) htarget) hp hx hy hsx hty hxb hyb]

/-! ## What is reported -/

/-- What a link is like when a defect is found at it. -/
def Link.Breaks (g : FlowGraph) (l : Link) : Defect → Prop
  | .materializedShuffle _ _ => l.isShuffle = true ∧ l.direct = false
  | .entersBesideShuffle _ _ _ => l.isShuffle = true ∧ l.direct = true ∧
    (g.owner? l.connection.target).any (·.isShuffleBoundary) = false
  | .notFromMap _ _ => l.target.isReduce = true ∧ l.source.isMap = false
  | .unmaterialized _ _ _ => l.source.isReduce = true ∧ l.target.isMap = true ∧ l.direct = true
  | _ => False

theorem breaks_of_mem_defects {l : Link} {defect : Defect} (hd : defect ∈ l.defects g) :
    l.Breaks g defect := by
  unfold Link.defects at hd
  dsimp only at hd
  split at hd
  case isTrue hbreaks =>
    rw [List.mem_singleton.1 hd]
    simpa [Link.Breaks] using hbreaks
  case isFalse hdirect =>
    split at hd
    case isTrue hbreaks =>
      rw [List.mem_singleton.1 hd]
      simp only [Bool.and_eq_true, Bool.not_eq_true'] at hbreaks hdirect
      exact ⟨hbreaks.1, by simpa [hbreaks.1] using hdirect, hbreaks.2⟩
    case isFalse =>
      split at hd
      case isTrue hbreaks =>
        rw [List.mem_singleton.1 hd]
        simpa [Link.Breaks] using hbreaks
      case isFalse =>
        split at hd
        case isTrue hbreaks =>
          rw [List.mem_singleton.1 hd]
          simpa [Link.Breaks, and_assoc] using hbreaks
        case isFalse => cases hd

theorem exists_link_of_mem_defects {defect : Defect} (hd : defect ∈ (plan g).2)
    (hlink : defect.isOfLink = true) : ∃ l ∈ linksOf g, defect ∈ l.defects g := by
  have horder : defect.isOrdering = false := by cases defect <;> first | rfl | cases hlink
  obtain ⟨r, hr, hd⟩ := exists_route_of_mem_defects hd horder
  unfold Route.defects at hd
  split at hd
  case h_1 l hl => exact ⟨l, List.mem_filterMap.2 ⟨r, hr, hl⟩, hd⟩
  case h_2 =>
    rw [List.mem_singleton.1 hd] at hlink
    cases hlink

/-- A reduce block feeds no map block directly. -/
theorem ne_unmaterialized (h : g.Coherent) {defect : Defect} (hd : defect ∈ (plan g).2)
    (target : ElementRef) (label : String) (block : BlockId) :
    defect ≠ .unmaterialized target label block := by
  rintro rfl
  obtain ⟨l, hl, hd⟩ := exists_link_of_mem_defects hd rfl
  obtain ⟨hreduce, hmap, hdirect⟩ := breaks_of_mem_defects hd
  have hsource := mem_innerBlocks_of_isStaged (source_mem_blocksOf hl)
    (by rw [Block.isStaged, hreduce, Bool.or_true])
  have htarget := mem_innerBlocks_of_isStaged (target_mem_blocksOf hl)
    (by rw [Block.isStaged, hmap, Bool.true_or])
  obtain ⟨⟨x, hx, hxb, hs⟩, y, hy, hyb, ht⟩ := exists_ends_of_mem_linksOf h hl
  have hf : g.Feeds x y := ⟨l.connection, connection_of_direct h hl hdirect, hs, ht⟩
  rw [isMap_eq_not_isReduce htarget,
    isReduce_of_feeds h hsource htarget hx hy hxb hyb hf hreduce] at hmap
  cases hmap

/-- The ends of a connection in map and reduce blocks share a stage; data goes from one stage to
another through checkpoints, and on no way without one; no reduce block is found to feed a map block
directly. -/
theorem stages_meet_at_checkpoints (h : g.WellFormed) :
    (∀ c ∈ g.connections, ∀ x ∈ g.elements, ∀ y ∈ g.elements, c.source ∈ x.outputIds →
      c.target ∈ y.inputIds → ∀ b ∈ (plan g).1.blocks, ∀ b' ∈ (plan g).1.blocks,
        b.isStaged = true → b'.isStaged = true → x.id ∈ b.elements → y.id ∈ b'.elements →
          (plan g).1.ShareStage b.id b'.id) ∧
    (∀ c ∈ (plan g).1.connections, ∀ u d, (plan g).1.Joins c u d →
      ∀ s ∈ (plan g).1.stages, ∀ s' ∈ (plan g).1.stages, u ∈ s.blocks → d ∈ s'.blocks → s ≠ s' →
        g.Carries (·.isCheckpoint = true) c.source c.target ∧
          ¬ g.Carries (·.isCheckpoint = false) c.source c.target) ∧
    ∀ defect ∈ (plan g).2, ∀ target label block,
      defect ≠ .unmaterialized target label block := by
  have hg := h.coherent
  refine ⟨?_, ?_, fun defect hd => ne_unmaterialized hg hd⟩
  · intro c hc x hx y hy hs ht b hb b' hb' hstaged hstaged' hxb hyb
    have hinner := mem_innerBlocks_of_isStaged hb hstaged
    have hinner' := mem_innerBlocks_of_isStaged hb' hstaged'
    exact shareStage_of_leaderOf_eq hb hb' hstaged hstaged'
      (leaderOf_eq_of_connection hg hinner hinner' hc hx hy hs ht hxb hyb)
  · intro c hc u d hj s hs s' hs' hu hd hne
    obtain ⟨l, hl, rfl, rfl, rfl⟩ := exists_link hg hc hj
    refine ⟨?_, not_carries_of_stages hg hl hs hs' hu hd hne⟩
    obtain ⟨⟨x, hx, -, hsx⟩, -⟩ := exists_ends_of_mem_linksOf hg hl
    obtain ⟨-, -, htarget, -⟩ := mem_linksOf.1 hl
    exact ((mem_targets hg (isOutputPort_iff.2 ⟨x, hx, hsx⟩)).1
      (List.mem_map_of_mem htarget)).2

/-- A shuffle whose output is materialized in front of another operator. -/
def twoStages : FlowGraph :=
  let desc (name kind : String) : OperatorDesc := { name, kind, resources := [] }
  let key : PortDecl := { PortDecl.plain "in" "Record" with key := some ⟨["key"], []⟩ }
  assemble
    [.input "in" "Record",
      .operator "m" (desc "m" "update") [.plain "in" "Record"] [.plain "out" "Record"] .none,
      .operator "r" (desc "r" "fold") [key] [.plain "out" "Record"] .shuffle,
      .pseudo "c" "Record" .stage,
      .operator "n" (desc "n" "update") [.plain "in" "Record"] [.plain "out" "Record"] .none,
      .output "out" "Record"]
    [(0, 1), (2, 3), (4, 5), (6, 7), (8, 9)]

set_option maxRecDepth 10000 in
theorem twoStages_meet :
    twoStages.WellFormed ∧ (plan twoStages).1.ShareStage 1 2 ∧
      ¬ twoStages.Carries (·.isCheckpoint = false) 4 7 := by
  have hwf : twoStages.WellFormed := assemble_wellFormed _ (by simp)
  obtain ⟨hmeet, hapart, -⟩ := stages_meet_at_checkpoints hwf
  have hends : ⟨2, 3⟩ ∈ twoStages.connections ∧
      (twoStages.elements.any fun x => x.id == 1 && x.outputIds == [2]) = true ∧
      (twoStages.elements.any fun y => y.id == 2 && y.inputIds == [3]) = true := by
    decide +kernel
  have hblocks : ∀ p ∈ [(1, 1), (2, 2), (3, 4)], ∃ b ∈ blocksOf twoStages, b.id = p.1 ∧
      b.isStaged = true ∧ p.2 ∈ b.elements := by
    decide +kernel
  have hlink : (plan twoStages).1.connections.contains ⟨4, 7⟩ = true := by cbv
  have hjoins : (plan twoStages).1.Joins ⟨4, 7⟩ 2 3 := ⟨by cbv, by cbv⟩
  have hleaders : leaderOf twoStages 2 = 1 ∧ leaderOf twoStages 3 = 3 := ⟨by cbv, by cbv⟩
  simp only [List.any_eq_true, Bool.and_eq_true, beq_iff_eq] at hends
  obtain ⟨hc, ⟨x, hx, hxid, hxout⟩, y, hy, hyid, hyin⟩ := hends
  obtain ⟨b, hb, hbid, hstaged, hxb⟩ := hblocks (1, 1) (by decide)
  obtain ⟨b', hb', hbid', hstaged', hyb⟩ := hblocks (2, 2) (by decide)
  obtain ⟨k, hk, hkid, hkstaged, -⟩ := hblocks (3, 4) (by decide)
  have hshare := hmeet _ hc x hx y hy (by simp [hxout]) (by simp [hyin]) b hb b' hb' hstaged
    hstaged' (hxid ▸ hxb) (hyid ▸ hyb)
  rw [hbid, hbid'] at hshare
  refine ⟨hwf, hshare, (hapart _ (List.contains_iff_mem.1 hlink) 2 3 hjoins _
    (stage_mem hb' hstaged') _ (stage_mem hk hkstaged) ?_ ?_ ?_).2⟩
  · exact hbid' ▸ (mem_blocks hb').2 ⟨hstaged', rfl⟩
  · exact hkid ▸ (mem_blocks hk).2 ⟨hkstaged, rfl⟩
  · intro hsame
    have hown := (mem_blocks hk
      (n := (stageLeaders twoStages).idxOf (leaderOf twoStages k.id) + 1)).2 ⟨hkstaged, rfl⟩
    rw [← hsame, mem_blocks hk, hkid, hbid', hleaders.1, hleaders.2] at hown
    cases hown.2

end StageGraph
end FlowPlan
