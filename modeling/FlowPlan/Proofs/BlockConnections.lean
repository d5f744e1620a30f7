import FlowPlan.Proofs.Materialization
import FlowPlan.Proofs.StagePlans

/-!
The connections between the blocks of a plan.

There is one connection for each output of a block and each port outside of the block that a path
through checkpoints alone leads to from there, and each of these ports is an input of one block.  So
nothing that leaves a block is lost, and no element is reported to have no block.

`Resolves` describes the search for targets by what it does: it arrives at a port, notes it once if
its element is no checkpoint, and leaves a checkpoint by each output once.  Checkpoints may form
circles or rejoin.  `resolve` strikes off the input ports that it has met instead, and the two agree
since a checkpoint has one input and one output.
-/

namespace FlowPlan
namespace StageGraph

open FlowGraph

variable {g : FlowGraph} {b b' : Block} {x y : Element} {u d o p : PortId}

/-! ## The search for targets -/

/-- What a search still has to do: arrive at an input port, after passing a checkpoint or not, or
leave a checkpoint by an output port. -/
inductive Errand
  | arrive (d : PortId) (direct : Bool)
  | leave (o : PortId)

/-- What a search has met: the outputs of checkpoints that it left by, and the ports it found. -/
structure Met where
  exits : List PortId
  found : List (PortId × Bool)

/-- The search does all its errands, each with what follows from it before the next, and ends. -/
inductive Resolves (g : FlowGraph) : List Errand → Met → Met → Prop
  | done {m : Met} : Resolves g [] m m
  | finds {d : PortId} {direct : Bool} {e : Element} {rest : List Errand} {m last : Met}
      (ho : g.owner? d = some e) (hc : e.isCheckpoint = false) (hnew : d ∉ m.found.map (·.1))
      (hrest : Resolves g rest { m with found := m.found ++ [(d, direct)] } last) :
      Resolves g (.arrive d direct :: rest) m last
  | knows {d : PortId} {direct : Bool} {e : Element} {rest : List Errand} {m last : Met}
      (ho : g.owner? d = some e) (hc : e.isCheckpoint = false) (hold : d ∈ m.found.map (·.1))
      (hrest : Resolves g rest m last) : Resolves g (.arrive d direct :: rest) m last
  | passes {d : PortId} {direct : Bool} {e : Element} {rest : List Errand} {m last : Met}
      (ho : g.owner? d = some e) (hc : e.isCheckpoint = true)
      (hrest : Resolves g (e.outputIds.map .leave ++ rest) m last) :
      Resolves g (.arrive d direct :: rest) m last
  | leaves {o : PortId} {rest : List Errand} {m last : Met} (hnew : o ∉ m.exits)
      (hrest : Resolves g ((g.opposites o).map (.arrive · false) ++ rest)
        { m with exits := o :: m.exits } last) : Resolves g (.leave o :: rest) m last
  | avoids {o : PortId} {rest : List Errand} {m last : Met} (hold : o ∈ m.exits)
      (hrest : Resolves g rest m last) : Resolves g (.leave o :: rest) m last

/-- The errands leave no choice. -/
theorem Resolves.unique {es : List Errand} {m last last' : Met} (hr : Resolves g es m last)
    (hr' : Resolves g es m last') : last = last' := by
  induction hr with
  | done => cases hr' with | done => rfl
  | finds ho hc hnew _ ih =>
    cases hr' with
    | finds _ _ _ hrest => exact ih hrest
    | knows _ _ hold _ => exact absurd hold hnew
    | passes ho' hc' _ => simp_all
  | knows ho hc hold _ ih =>
    cases hr' with
    | finds _ _ hnew _ => exact absurd hold hnew
    | knows _ _ _ hrest => exact ih hrest
    | passes ho' hc' _ => simp_all
  | passes ho hc _ ih =>
    cases hr' with
    | finds ho' hc' _ _ => simp_all
    | knows ho' hc' _ _ => simp_all
    | passes ho' _ hrest =>
      obtain rfl := Option.some.inj (ho.symm.trans ho')
      exact ih hrest
  | leaves hnew _ ih =>
    cases hr' with
    | leaves _ hrest => exact ih hrest
    | avoids hold _ => exact absurd hold hnew
  | avoids hold _ ih =>
    cases hr' with
    | leaves hnew _ => exact absurd hold hnew
    | avoids _ hrest => exact ih hrest

/-- The ports that are struck off are those that the search has met. -/
structure Agrees (g : FlowGraph) (unmet : List PortId) (m : Met) : Prop where
  nodup : unmet.Nodup
  found : ∀ x ∈ g.elements, x.isCheckpoint = false → ∀ d ∈ x.inputIds,
    (d ∉ unmet ↔ d ∈ m.found.map (·.1))
  exits : ∀ x ∈ g.elements, x.isCheckpoint = true → ∀ a ∈ x.inputIds, ∀ o ∈ x.outputIds,
    (a ∉ unmet ↔ o ∈ m.exits)

theorem not_mem_erase_iff {unmet : List PortId} (hn : unmet.Nodup) :
    d ∉ unmet.erase p ↔ d = p ∨ d ∉ unmet := by
  rw [hn.mem_erase_iff, not_and_or, not_not]

theorem isPseudo_of_isCheckpoint (hc : x.isCheckpoint = true) : x.isPseudo = true := by
  rw [Element.isCheckpoint, Bool.and_eq_true] at hc
  exact hc.1

/-- A checkpoint has one input and one output. -/
theorem ports_of_isCheckpoint (h : g.Coherent) (hx : x ∈ g.elements)
    (hc : x.isCheckpoint = true) : ∃ a o, x.inputIds = [a] ∧ x.outputIds = [o] :=
  Element.ports_of_isPseudo (h.shaped x hx) (isPseudo_of_isCheckpoint hc)

theorem behindCheckpoint_eq (hout : x.outputIds = [o]) :
    g.behindCheckpoint x = g.opposites o := by
  have hflat : (x.outputs.map (·.id)).flatMap g.opposites = g.opposites o := by
    rw [show x.outputs.map (·.id) = [o] from hout, List.flatMap_singleton]
  rwa [List.flatMap_map] at hflat

/-- An element is found by its input ports. -/
theorem mem_of_input (h : g.Coherent) (ho : g.owner? d = some x)
    (hd : g.isInputPort d = true) : x ∈ g.elements ∧ d ∈ x.inputIds := by
  obtain ⟨y, hy, hdy⟩ := isInputPort_iff.1 hd
  have howner := h.owner?_eq_some hy (Element.mem_portIds.2 (.inl hdy))
  obtain rfl := Option.some.inj (ho.symm.trans howner)
  exact ⟨hy, hdy⟩

variable {unmet : List PortId} {m : Met}

theorem Agrees.find (h : g.Coherent) (ha : Agrees g unmet m) (hx : x ∈ g.elements)
    (hc : x.isCheckpoint = false) (hd : d ∈ x.inputIds) (direct : Bool) :
    Agrees g (unmet.erase d) { m with found := m.found ++ [(d, direct)] } where
  nodup := ha.nodup.erase d
  found z hz hzc d' hd' := by
    rw [not_mem_erase_iff ha.nodup, ha.found z hz hzc d' hd', List.map_append, List.mem_append,
      List.map_singleton, List.mem_singleton, or_comm]
  exits z hz hzc a haz o ho := by
    have hne : a ≠ d := by
      rintro rfl
      rw [h.eq_of_input hz hx haz hd, hc] at hzc
      cases hzc
    rw [not_mem_erase_iff ha.nodup, ← ha.exits z hz hzc a haz o ho]
    exact or_iff_right hne

theorem Agrees.leave (h : g.Coherent) (ha : Agrees g unmet m) (hx : x ∈ g.elements)
    (hc : x.isCheckpoint = true) (hin : x.inputIds = [d]) (hout : x.outputIds = [o]) :
    Agrees g (unmet.erase d) { m with exits := o :: m.exits } where
  nodup := ha.nodup.erase d
  found z hz hzc d' hd' := by
    have hne : d' ≠ d := by
      rintro rfl
      rw [h.eq_of_input hz hx hd' (hin ▸ List.mem_singleton_self d'), hc] at hzc
      cases hzc
    rw [not_mem_erase_iff ha.nodup, ← ha.found z hz hzc d' hd']
    exact or_iff_right hne
  exits z hz hzc a haz o' ho' := by
    have hsame : a = d ↔ o' = o := by
      constructor
      · rintro rfl
        obtain rfl := h.eq_of_input hz hx haz (hin ▸ List.mem_singleton_self a)
        rwa [hout, List.mem_singleton] at ho'
      · rintro rfl
        obtain rfl := h.eq_of_output hz hx ho' (hout ▸ List.mem_singleton_self o')
        rwa [hin, List.mem_singleton] at haz
    rw [not_mem_erase_iff ha.nodup, ha.exits z hz hzc a haz o' ho', hsame, List.mem_cons]

/-- The search ends with what `resolve` finds, whatever it has met before. -/
theorem exists_resolves (h : g.Coherent) {pending : List (PortId × Bool)}
    (ha : Agrees g unmet m) (hports : ∀ q ∈ pending, g.isInputPort q.1 = true) :
    ∃ exits, Resolves g (pending.map fun q => .arrive q.1 q.2) m
      ⟨exits, m.found ++ resolve g unmet pending⟩ := by
  induction unmet, pending using resolve.induct g generalizing m with
  | case1 unmet =>
    rw [resolve, List.append_nil]
    exact ⟨m.exits, .done⟩
  | case2 unmet d direct pending hd hnone ih =>
    obtain ⟨e, he, hde⟩ := isInputPort_iff.1 (hports _ List.mem_cons_self)
    rw [h.owner?_eq_some he (Element.mem_portIds.2 (.inl hde))] at hnone
    cases hnone
  | case3 unmet d direct pending hd e ho hc ih =>
    obtain ⟨he, hde⟩ := mem_of_input h ho (hports _ List.mem_cons_self)
    obtain ⟨a, o, hin, hout⟩ := ports_of_isCheckpoint h he hc
    obtain rfl : d = a := by rwa [hin, List.mem_singleton] at hde
    have hoe : o ∈ e.outputIds := hout ▸ List.mem_singleton_self o
    have hnew : o ∉ m.exits := fun hmem => (ha.exits e he hc d hde o hoe).2 hmem hd
    have hnext : ∀ q ∈ (g.behindCheckpoint e).map (·, false) ++ pending,
        g.isInputPort q.1 = true := by
      intro q hq
      rcases List.mem_append.1 hq with hq | hq
      · obtain ⟨p, hp, rfl⟩ := List.mem_map.1 hq
        obtain ⟨o', -, hconn⟩ := (mem_behindCheckpoint h he).1 hp
        exact (h.joined _ hconn).2
      · exact hports q (List.mem_cons_of_mem _ hq)
    obtain ⟨exits, hrest⟩ := ih (ha.leave h he hc hin hout) hnext
    rw [List.map_append, List.map_map, behindCheckpoint_eq hout] at hrest
    rw [resolve, dif_pos hd, ho]
    simp only [hc, if_true, behindCheckpoint_eq hout]
    refine ⟨exits, .passes ho hc ?_⟩
    rw [hout]
    exact .leaves hnew hrest
  | case4 unmet d direct pending hd e ho hc ih =>
    obtain ⟨he, hde⟩ := mem_of_input h ho (hports _ List.mem_cons_self)
    rw [Bool.not_eq_true] at hc
    have hnew : d ∉ m.found.map (·.1) := fun hmem => (ha.found e he hc d hde).2 hmem hd
    obtain ⟨exits, hrest⟩ := ih (ha.find h he hc hde direct)
      fun q hq => hports q (List.mem_cons_of_mem _ hq)
    rw [List.append_assoc, List.singleton_append] at hrest
    rw [resolve, dif_pos hd, ho]
    simp only [hc, Bool.false_eq_true, if_false]
    exact ⟨exits, .finds ho hc hnew hrest⟩
  | case5 unmet d direct pending hd ih =>
    obtain ⟨e, he, hde⟩ := isInputPort_iff.1 (hports _ List.mem_cons_self)
    have ho := h.owner?_eq_some he (Element.mem_portIds.2 (.inl hde))
    obtain ⟨exits, hrest⟩ := ih ha fun q hq => hports q (List.mem_cons_of_mem _ hq)
    rw [resolve, dif_neg hd]
    by_cases hc : e.isCheckpoint = true
    · obtain ⟨a, o, hin, hout⟩ := ports_of_isCheckpoint h he hc
      have hleft := (ha.exits e he hc d hde o (hout ▸ List.mem_singleton_self o)).1 hd
      refine ⟨exits, .passes ho hc ?_⟩
      rw [hout]
      exact .avoids hleft hrest
    · rw [Bool.not_eq_true] at hc
      exact ⟨exits, .knows ho hc ((ha.found e he hc d hde).1 hd) hrest⟩

theorem inputPortIds_nodup (h : g.Coherent) : g.inputPortIds.Nodup := by
  obtain ⟨heach, hapart⟩ := List.nodup_flatMap.1 h.portsOnce
  refine List.nodup_flatMap.2 ⟨fun x hx => ?_, hapart.imp fun hdisj p hp hp' => ?_⟩
  · have hports := heach x hx
    rw [Element.portIds_eq] at hports
    exact (List.nodup_append.1 hports).1
  · exact hdisj (Element.mem_portIds.2 (.inl hp)) (Element.mem_portIds.2 (.inl hp'))

/-- The search from an output port ends with the targets of the port, and in no other way. -/
theorem exists_search (h : g.Coherent) (hu : g.isOutputPort u = true) :
    ∃ exits, ∀ last, Resolves g ((g.opposites u).map (.arrive · true)) ⟨[], []⟩ last ↔
      last = ⟨exits, targets g u⟩ := by
  have hagree : Agrees g g.inputPortIds ⟨[], []⟩ := by
    refine ⟨inputPortIds_nodup h, fun x hx _ d hd => ?_, fun x hx _ a ha o _ => ?_⟩
    · simp [mem_inputPortIds.2 (isInputPort_iff.2 ⟨x, hx, hd⟩)]
    · simp [mem_inputPortIds.2 (isInputPort_iff.2 ⟨x, hx, ha⟩)]
  have hports : ∀ q ∈ (g.opposites u).map (·, true), g.isInputPort q.1 = true := by
    intro q hq
    obtain ⟨d, hd, rfl⟩ := List.mem_map.1 hq
    exact (h.joined _ ((h.mem_opposites hu).1 hd)).2
  obtain ⟨exits, hsearch⟩ := exists_resolves h hagree hports
  rw [List.map_map] at hsearch
  refine ⟨exits, fun last => ⟨fun hr => hr.unique hsearch, ?_⟩⟩
  rintro rfl
  exact hsearch

/-! ## No connection occurs twice -/

theorem Arrives.mem_unmet {qs : List PortId} (ha : Arrives g unmet qs p) : p ∈ unmet := by
  obtain ⟨q, -, hq, hpath⟩ := ha
  rcases hpath.cases_tail with rfl | ⟨r, -, hstep⟩
  · exact hq
  · exact hstep.2

/-- A port is found once, since it is struck off. -/
theorem resolve_nodup {pending : List (PortId × Bool)} (hn : unmet.Nodup) :
    ((resolve g unmet pending).map (·.1)).Nodup := by
  induction unmet, pending using resolve.induct g with
  | case1 unmet => simp [resolve]
  | case2 unmet d direct pending hd hnone ih =>
    rw [resolve, dif_pos hd, hnone]
    exact ih (hn.erase d)
  | case3 unmet d direct pending hd e ho hc ih =>
    rw [resolve, dif_pos hd, ho]
    simp only [hc, if_true]
    exact ih (hn.erase d)
  | case4 unmet d direct pending hd e ho hc ih =>
    rw [resolve, dif_pos hd, ho]
    simp only [hc, Bool.false_eq_true, if_false, List.map_cons]
    refine List.nodup_cons.2 ⟨fun hmem => ?_, ih (hn.erase d)⟩
    exact hn.not_mem_erase ((mem_resolve.1 hmem).2.mem_unmet)
  | case5 unmet d direct pending hd ih =>
    rw [resolve, dif_neg hd]
    exact ih hn

theorem targets_nodup (h : g.Coherent) (u : PortId) : ((targets g u).map (·.1)).Nodup :=
  resolve_nodup (inputPortIds_nodup h)

theorem outputs_nodup (h : g.Coherent) (hb : b ∈ blocksOf g) : b.outputs.Nodup := by
  have hmembers := outputsOf_members_nodup h (elements_nodup_of_mem_blocksOf h hb)
  rcases mem_blocksOf.1 hb with rfl | hb | rfl
  · exact hmembers
  · obtain ⟨id, part, -, rfl⟩ := mem_innerBlocks hb
    exact hmembers.filter _
  · exact List.nodup_nil

theorem source_of_mem_routesFrom {blocks : List Block} {r : Route}
    (hr : r ∈ routesFrom g blocks b) : r.source = b ∧ r.connection.source ∈ b.outputs ∧
      r.connection.target ∈ (targets g r.connection.source).map (·.1) ∧
        (g.ownerId? r.connection.target).any b.holds = false ∧
          r.target = blocks.find? (·.ports.contains r.connection.target) := by
  obtain ⟨u, hu, hr⟩ := List.mem_flatMap.1 hr
  obtain ⟨q, hq, rfl⟩ := List.mem_map.1 hr
  obtain ⟨hq, hleave⟩ := List.mem_filter.1 hq
  exact ⟨rfl, hu, List.mem_map_of_mem hq, by simpa using hleave, rfl⟩

theorem connections_nodup (h : g.Coherent) : (plan g).1.connections.Nodup := by
  have hfrom : ∀ b ∈ blocksOf g, (routesFrom g (blocksOf g) b).Pairwise
      fun r r' => r.connection ≠ r'.connection := by
    intro b hb
    refine List.pairwise_flatMap.2 ⟨fun u _ => ?_, (outputs_nodup h hb).imp ?_⟩
    · have hports := List.pairwise_map.1 (targets_nodup h u)
      exact List.pairwise_map.2
        ((hports.filter _).imp fun hne heq => hne (congrArg Connection.target heq))
    · intro u u' hne r hr r' hr' heq
      obtain ⟨q, -, rfl⟩ := List.mem_map.1 hr
      obtain ⟨q', -, rfl⟩ := List.mem_map.1 hr'
      exact hne (congrArg Connection.source heq)
  have hroutes : (routes g (blocksOf g)).Pairwise fun r r' => r.connection ≠ r'.connection := by
    refine List.pairwise_flatMap.2 ⟨hfrom, (blocksOf_ascending g).imp_of_mem ?_⟩
    intro b b' hb hb' hlt r hr r' hr' heq
    have hsource := (source_of_mem_routesFrom hr).2.1
    have hsource' := (source_of_mem_routesFrom hr').2.1
    rw [← heq] at hsource'
    rw [eq_of_mem_ports h hb hb' (List.mem_append_right _ hsource)
      (List.mem_append_right _ hsource')] at hlt
    exact Nat.lt_irrefl _ hlt
  rw [connections_plan, linksOf]
  refine List.pairwise_map.2 (List.pairwise_filterMap.2 (hroutes.imp ?_))
  intro r r' hne l hl l' hl' heq
  obtain ⟨t, -, rfl⟩ := Option.map_eq_some_iff.1 hl
  obtain ⟨t', -, rfl⟩ := Option.map_eq_some_iff.1 hl'
  exact hne heq

/-! ## Nothing that leaves a block is lost -/

/-- Data that leaves a block by one port arrives at another port, outside of the block, with nothing
but checkpoints on the way. -/
def LeavesFor (g : FlowGraph) (b : Block) (u d : PortId) : Prop :=
  ∃ y ∈ g.elements, d ∈ y.inputIds ∧ y.isCheckpoint = false ∧ y.id ∉ b.elements ∧
    g.Carries (·.isCheckpoint = true) u d

theorem leavesFor_iff (h : g.Coherent) (hb : b ∈ blocksOf g) (hu : u ∈ b.outputs) :
    LeavesFor g b u d ↔
      d ∈ (targets g u).map (·.1) ∧ (g.ownerId? d).any b.holds = false := by
  obtain ⟨x, hx, -, hux⟩ := exists_of_mem_outputs h hb hu
  rw [mem_targets h (isOutputPort_iff.2 ⟨x, hx, hux⟩)]
  constructor
  · intro hl
    obtain ⟨y, hy, hdy, hc, hyb, hpath⟩ := hl
    refine ⟨⟨⟨y, h.owner?_eq_some hy (Element.mem_portIds.2 (.inl hdy)), hc⟩, hpath⟩, ?_⟩
    rw [h.ownerId?_of_input hy hdy, Option.any_some, ← Bool.not_eq_true, holds_iff]
    exact hyb
  · intro hfound
    obtain ⟨⟨⟨y, ho, hc⟩, hpath⟩, hout⟩ := hfound
    obtain ⟨w, hlast, -⟩ := exists_last_connection hpath
    obtain ⟨hy, hdy⟩ := mem_of_input h ho (h.joined _ hlast).2
    rw [h.ownerId?_of_input hy hdy, Option.any_some, ← Bool.not_eq_true, holds_iff] at hout
    exact ⟨y, hy, hdy, hc, hout, hpath⟩

/-- What leaves a block arrives at an input of another one. -/
theorem LeavesFor.exists_input (h : g.Coherent) (hb : b ∈ blocksOf g) (hu : u ∈ b.outputs)
    (hl : LeavesFor g b u d) : ∃ b' ∈ blocksOf g, d ∈ b'.inputs := by
  obtain ⟨x, hx, hxb, hux⟩ := exists_of_mem_outputs h hb hu
  obtain ⟨y, hy, hdy, hc, hyb, hpath⟩ := hl
  obtain ⟨b', hb', hyb'⟩ := exists_block h hy hc
  have hxb' : x.id ∉ b'.elements := by
    intro hxb'
    rw [eq_of_mem_elements h hb hb' hxb hxb'] at hyb
    exact hyb hyb'
  exact ⟨b', hb', mem_inputs_of_carries h hb' hx hy hux hdy hxb' hyb' hpath⟩

theorem mem_connections_iff (h : g.Coherent) :
    ⟨u, d⟩ ∈ (plan g).1.connections ↔ ∃ b ∈ blocksOf g, u ∈ b.outputs ∧ LeavesFor g b u d := by
  rw [connections_plan]
  constructor
  · intro hmem
    obtain ⟨l, hl, hconn⟩ := List.mem_map.1 hmem
    obtain ⟨hb, hu, htarget, hleave, -⟩ := mem_linksOf.1 hl
    rw [hconn] at hu htarget hleave
    exact ⟨l.source, hb, hu, (leavesFor_iff h hb hu).2 ⟨List.mem_map_of_mem htarget, hleave⟩⟩
  · intro hl
    obtain ⟨b, hb, hu, hl⟩ := hl
    obtain ⟨b', hb', hd⟩ := hl.exists_input h hb hu
    obtain ⟨htarget, hleave⟩ := (leavesFor_iff h hb hu).1 hl
    obtain ⟨⟨q, direct⟩, hq, rfl⟩ := List.mem_map.1 htarget
    exact List.mem_map.2 ⟨⟨⟨u, q⟩, b, b', direct⟩,
      mem_linksOf.2 ⟨hb, hu, hq, hleave, find?_port h hb' (List.mem_append_left _ hd)⟩, rfl⟩

/-- Every route arrives at a block. -/
theorem exists_link? (h : g.Coherent) {r : Route} (hr : r ∈ routes g (blocksOf g)) :
    ∃ l, r.link? = some l := by
  obtain ⟨b, hb, hr⟩ := List.mem_flatMap.1 hr
  obtain ⟨-, hu, htarget, hleave, hblock⟩ := source_of_mem_routesFrom hr
  obtain ⟨b', hb', hd⟩ := ((leavesFor_iff h hb hu).2 ⟨htarget, hleave⟩).exists_input h hb hu
  rw [find?_port h hb' (List.mem_append_left _ hd)] at hblock
  rw [Route.link?, hblock]
  exact ⟨_, rfl⟩

/-- No element that is fed is reported to be in no block. -/
theorem ne_homeless (h : g.Coherent) {defect : Defect} (hd : defect ∈ (plan g).2)
    (target : ElementRef) (label : String) (block : BlockId) :
    defect ≠ .homeless target label block := by
  rintro rfl
  obtain ⟨r, hr, hd⟩ := exists_route_of_mem_defects hd rfl
  obtain ⟨l, hl⟩ := exists_link? h hr
  rw [Route.defects, hl] at hd
  exact breaks_of_mem_defects hd

/-! ## The connections of a plan -/

/-- Each connection of a plan is there once and goes from an output of a block to where the data
that leaves by it arrives, which is an input of one block, and all of these are connected. -/
structure ConnectsBlocks (sg : StageGraph) : Prop where
  once : sg.connections.Nodup
  complete : ∀ u d, ⟨u, d⟩ ∈ sg.connections ↔
    ∃ b ∈ sg.blocks, u ∈ b.outputs ∧ LeavesFor sg.flow b u d
  arrive : ∀ u d, ⟨u, d⟩ ∈ sg.connections → ∃! b, b ∈ sg.blocks ∧ d ∈ b.inputs

/-- The connections of a plan are what leaves its blocks, through checkpoints or not.  Nothing is
reported to have no block, and the search from every output of a block ends with the targets that
the connections are made of. -/
theorem plan_connects_blocks (h : g.WellFormed) :
    (plan g).1.ConnectsBlocks ∧
      (∀ defect ∈ (plan g).2, ∀ target label block, defect ≠ .homeless target label block) ∧
      ∀ b ∈ (plan g).1.blocks, ∀ u ∈ b.outputs, ∃ exits, ∀ last,
        Resolves g ((g.opposites u).map (.arrive · true)) ⟨[], []⟩ last ↔
          last = ⟨exits, targets g u⟩ := by
  refine ⟨⟨connections_nodup h.coherent, fun u d => mem_connections_iff h.coherent, ?_⟩,
    fun _ hd => ne_homeless h.coherent hd, fun b hb u hu => ?_⟩
  · intro u d hmem
    obtain ⟨b, hb, hu, hl⟩ := (mem_connections_iff h.coherent).1 hmem
    obtain ⟨b', hb', hd⟩ := hl.exists_input h.coherent hb hu
    refine ⟨b', ⟨hb', hd⟩, fun k hk => ?_⟩
    exact eq_of_mem_ports h.coherent hk.1 hb' (List.mem_append_left _ hk.2)
      (List.mem_append_left _ hd)
  · obtain ⟨x, hx, -, hux⟩ := exists_of_mem_outputs h.coherent hb hu
    exact exists_search h.coherent (isOutputPort_iff.2 ⟨x, hx, hux⟩)

/-- Two checkpoints that feed each other, and both of them the same operator. -/
def checkpointCircle : FlowGraph :=
  let work (name : String) : ElementDecl :=
    .operator name { name, kind := "update", resources := [] } [.plain "in" "Record"]
      [.plain "out" "Record"] .none
  assemble
    [.input "in" "Record", work "m", .pseudo "c" "Record" .stage, .pseudo "d" "Record" .stage,
      work "n", .output "out" "Record"]
    [(0, 1), (2, 3), (4, 5), (6, 3), (6, 7), (4, 7), (8, 9)]

/-- The operator behind the circle is found once, whichever way the search takes around it. -/
theorem checkpointCircle_connected : checkpointCircle.WellFormed ∧
    (plan checkpointCircle).1.connections = [⟨0, 1⟩, ⟨2, 7⟩, ⟨8, 9⟩] ∧
    (plan checkpointCircle).1.ConnectsBlocks ∧
    ∃ exits, ∀ last, Resolves checkpointCircle [.arrive 3 true] ⟨[], []⟩ last ↔
      last = ⟨exits, [(7, false)]⟩ := by
  have hwf : checkpointCircle.WellFormed := assemble_wellFormed _ (by simp)
  obtain ⟨hconnects, -, hsearch⟩ := plan_connects_blocks hwf
  have hblock : (blocksOf checkpointCircle)[1]? = some ⟨1, .map, [1], [1], [2]⟩ := by
    decide +kernel
  have htargets : targets checkpointCircle 2 = [(7, false)] := by cbv
  have hbehind : checkpointCircle.opposites 2 = [3] := by decide +kernel
  have hend := hsearch _ (List.mem_of_getElem? hblock) 2 (List.mem_singleton_self 2)
  rw [htargets, hbehind] at hend
  exact ⟨hwf, by cbv, hconnects, hend⟩

end StageGraph
end FlowPlan
