import FlowPlan.Proofs.StageElements

/-!
Which fragments of a stage feed which.

Fragments are numbered through the blocks of a stage, and an edge joins two of them when the end of
the one feeds the start of the other in their block.  `Divided` says so for the blocks that have
been added so far.  With it the numbers can be left behind: what can be reached from a fragment are
the fragments of the elements that its own elements lead to inside the block.
-/

namespace FlowPlan

open Relation

namespace Fragmentation
namespace Setting

variable {s : Setting} {e n : ElementId} {free : List ElementId}

/-! ## The ends of a chain -/

theorem chain_head (free : List ElementId) (e : ElementId) : (s.chain free e).headD 0 = e := by
  induction free, e using chain_induction s with
  | stops free e hchain hstop =>
    rw [hchain]
    rfl
  | goesOn free e n hchain hends hone hmem ih =>
    rw [hchain]
    rfl

/-- A chain ends where it does not go on. -/
theorem getLast?_chain (hfree : ∀ n ∈ free, n ∉ s.starts) (hn : n ∈ s.chain free e)
    (hlast : ∀ m, ¬ s.GoesOn n m) : (s.chain free e).getLast? = some n := by
  induction free, e using chain_induction s with
  | stops free e hchain hstop =>
    rw [hchain] at hn ⊢
    rw [List.mem_singleton.1 hn]
    rfl
  | goesOn free e m hchain hends hone hmem ih =>
    rw [hchain] at hn ⊢
    rcases List.mem_cons.1 hn with rfl | hn
    · exact absurd ⟨hends, hone, hfree m hmem⟩ (hlast m)
    · rw [List.getLast?_cons, ih (fun k hk => hfree k (List.mem_of_mem_erase hk)) hn]
      rfl

theorem getLast?_chainFrom (hn : n ∈ s.chainFrom e) (hlast : ∀ m, ¬ s.GoesOn n m) :
    (s.chainFrom e).getLast? = some n :=
  getLast?_chain (fun _ hm => (mem_without.1 hm).2) hn hlast

/-- What leaves the block ends its chain. -/
theorem not_goesOn_of_isLeft (he : e ∈ s.block.elements) (hleft : s.isLeft e = true) :
    ¬ s.GoesOn e n := by
  intro hstep
  refine hstep.begins (mem_starts.2 (.inr ⟨e, he, ?_, hstep.mem_successors⟩))
  rw [splits, hleft]
  simp

/-- What begins no chain continues the chain of what is in front of it. -/
theorem goesOn_of_mem_successors (h : s.flow.Coherent)
    (hsub : ∀ e ∈ s.block.elements, ∃ x ∈ s.flow.elements, x.id = e) (he : e ∈ s.block.elements)
    (hn : n ∈ s.successors e) (hbegins : n ∉ s.starts) : s.GoesOn e n := by
  have hnb := (mem_inBlock.1 hn).2
  obtain ⟨e', he', hstep⟩ := exists_goesOn h hsub hnb hbegins
  obtain ⟨p, hp⟩ := exists_predecessors_eq hnb hbegins
  have hone := (mem_predecessors_iff h hsub he hnb).2 hn
  have hone' := (mem_predecessors_iff h hsub he' hnb).2 hstep.mem_successors
  rw [hp, List.mem_singleton] at hone hone'
  rwa [hone, ← hone']

/-! ## The fragments of a block -/

theorem head_fragment (id : FragmentId) (e : ElementId) :
    (s.fragment id (s.chainFrom e)).head = e := by
  rw [Fragment.head, elements_fragment]
  exact chain_head _ e

theorem mem_fragments {first : FragmentId} {f : Fragment} (hf : f ∈ s.fragments first) :
    ∃ e ∈ s.starts, f = s.fragment f.id (s.chainFrom e) := by
  obtain ⟨⟨c, id⟩, hc, rfl⟩ := List.mem_map.1 hf
  obtain ⟨e, he, rfl⟩ := List.mem_map.1 (List.fst_mem_of_mem_zipIdx hc)
  exact ⟨e, he, rfl⟩

theorem heads_fragments (first : FragmentId) : (s.fragments first).map (·.head) = s.starts := by
  have hheads : (s.fragments first).map (·.head) = s.chains.map (·.headD 0) := by
    rw [fragments, List.map_map]
    conv => rhs; rw [← List.zipIdx_map_fst first s.chains, List.map_map]
    refine List.map_congr_left fun pair _ => ?_
    show (s.fragment pair.2 pair.1).head = _
    rw [Fragment.head, elements_fragment]
    rfl
  rw [hheads, chains, List.map_map]
  refine (List.map_congr_left fun e _ => ?_).trans (List.map_id _)
  exact chain_head _ e

theorem ids_fragments (first : FragmentId) :
    (s.fragments first).map (·.id) = List.range' first (s.fragments first).length := by
  rw [fragments, List.map_map, List.length_map, List.length_zipIdx]
  exact List.zipIdx_map_snd first s.chains

end Setting
end Fragmentation

namespace Fragments

open Fragmentation

variable {g : FlowGraph} {processor : ElementId → Processor} {bs : List Block} {b : Block}
  {fs : Fragments} {f : Fragment} {l : List Fragment} {e : ElementId} {i j : FragmentId}

/-! ## Fragments by their first elements -/

theorem exists_of_headedBy? (h : headedBy? l e = some j) : ∃ f ∈ l, f.head = e ∧ f.id = j := by
  obtain ⟨f, hf, rfl⟩ := Option.map_eq_some_iff.1 h
  obtain ⟨hmem, hhead⟩ := List.mem_filter.1 (List.mem_of_getLast? hf)
  exact ⟨f, hmem, by simpa using hhead, rfl⟩

theorem headedBy?_head (hn : (l.map (·.head)).Nodup) (hf : f ∈ l) :
    headedBy? l f.head = some f.id := by
  have hmem : f ∈ l.filter (·.head == f.head) := List.mem_filter.2 ⟨hf, beq_self_eq_true _⟩
  obtain ⟨f', hf'⟩ : ∃ f', (l.filter (·.head == f.head)).getLast? = some f' :=
    Option.isSome_iff_exists.1 (by rw [List.getLast?_isSome]; exact List.ne_nil_of_mem hmem)
  obtain ⟨hmem', hhead⟩ := List.mem_filter.1 (List.mem_of_getLast? hf')
  obtain rfl := List.inj_on_of_nodup_map hn hmem' hf (by simpa using hhead)
  rw [headedBy?, hf']
  rfl

/-! ## The blocks that have been added -/

/-- The fragments of some blocks, and an edge wherever one feeds the start of another. -/
structure Divided (g : FlowGraph) (processor : ElementId → Processor) (bs : List Block)
    (fs : Fragments) : Prop where
  ids : fs.list.map (·.id) = List.range fs.list.length
  fragments : ∀ f ∈ fs.list, ∃ b ∈ bs, ∃ e ∈ (Setting.mk g b processor).starts,
    f = (Setting.mk g b processor).fragment f.id ((Setting.mk g b processor).chainFrom e)
  heads : ∀ b ∈ bs, ∀ e ∈ (Setting.mk g b processor).starts,
    ∃ f ∈ fs.list, f.block = b.id ∧ f.head = e
  headsOnce : (fs.list.map (·.head)).Nodup
  edges : ∀ i j, (i, j) ∈ fs.edges ↔ ∃ f ∈ fs.list, ∃ n ∈ fs.list, f.id = i ∧ n.id = j ∧
    n.block = f.block ∧ n.head ∈ f.outputs.flatMap g.oppositeOwners

theorem Divided.empty (g : FlowGraph) (processor : ElementId → Processor) :
    Divided g processor [] .empty :=
  ⟨rfl, by simp [Fragments.empty], by simp, by simp [Fragments.empty], by simp [Fragments.empty]⟩

namespace Divided

theorem head_mem (h : Divided g processor bs fs) (hf : f ∈ fs.list) :
    ∃ b ∈ bs, f.block = b.id ∧ f.head ∈ (Setting.mk g b processor).starts := by
  obtain ⟨b, hb, e, he, heq⟩ := h.fragments f hf
  refine ⟨b, hb, ?_, ?_⟩
  · rw [heq]
    rfl
  · rw [heq, Setting.head_fragment]
    exact he

theorem mem_edges_addBlock {s : Setting} : (i, j) ∈ (fs.addBlock s).edges ↔ (i, j) ∈ fs.edges ∨
    ∃ f ∈ s.fragments fs.list.length, f.id = i ∧
      ∃ e ∈ s.fedElements f, headedBy? (fs.addBlock s).list e = some j := by
  simp only [Fragments.addBlock, List.mem_append, List.mem_flatMap, List.mem_map,
    List.mem_filterMap, Prod.mk.injEq]
  refine or_congr_right ⟨?_, ?_⟩
  · rintro ⟨f, hf, n, ⟨e, he, hn⟩, rfl, rfl⟩
    exact ⟨f, hf, rfl, e, he, hn⟩
  · rintro ⟨f, hf, rfl, e, he, hn⟩
    exact ⟨f, hf, j, ⟨e, he, hn⟩, rfl, rfl⟩

/-- One more block, apart from those that are there. -/
theorem addBlock (h : Divided g processor bs fs)
    (hnew : ∀ b' ∈ bs, b'.id ≠ b.id ∧ ∀ e ∈ b.elements, e ∉ b'.elements) :
    Divided g processor (bs ++ [b]) (fs.addBlock ⟨g, b, processor⟩) := by
  generalize hs : Setting.mk g b processor = s
  have hblock : s.block = b := by rw [← hs]
  have hflow : s.flow = g := by rw [← hs]
  have hlist : (fs.addBlock s).list = fs.list ++ s.fragments fs.list.length := rfl
  have hheads := s.heads_fragments fs.list.length
  -- The fragments of the new block are those with its number, and the start of none is an old one.
  have hold : ∀ f ∈ fs.list, f.block ≠ b.id ∧ f.head ∉ b.elements := by
    intro f hf
    obtain ⟨b', hb', hfb, hhead⟩ := h.head_mem hf
    obtain ⟨hne, hdisj⟩ := hnew b' hb'
    exact ⟨fun heq => hne (hfb.symm.trans heq),
      fun hmem => hdisj _ hmem (Setting.starts_subset hhead)⟩
  have hadded : ∀ f ∈ s.fragments fs.list.length, f.block = b.id ∧ f.head ∈ s.starts := by
    intro f hf
    obtain ⟨e, he, heq⟩ := Setting.mem_fragments hf
    refine ⟨?_, hheads ▸ List.mem_map_of_mem hf⟩
    rw [heq, ← hblock]
    rfl
  have honce : ((fs.addBlock s).list.map (·.head)).Nodup := by
    rw [hlist, List.map_append, hheads, List.nodup_append]
    refine ⟨h.headsOnce, ascending_nodup _, fun e he e' he' heq => ?_⟩
    obtain ⟨f, hf, rfl⟩ := List.mem_map.1 he
    subst heq
    exact (hold f hf).2 (hblock ▸ Setting.starts_subset he')
  refine
    { ids := ?ids
      fragments := ?fragments
      heads := ?heads
      headsOnce := honce
      edges := ?edges }
  case ids =>
    rw [hlist, List.map_append, h.ids, Setting.ids_fragments, List.length_append,
      List.range_eq_range', List.range_eq_range', ← List.range'_append_1, Nat.zero_add]
  case fragments =>
    intro f hf
    rw [hlist, List.mem_append] at hf
    rcases hf with hf | hf
    · obtain ⟨b', hb', hrest⟩ := h.fragments f hf
      exact ⟨b', List.mem_append_left _ hb', hrest⟩
    · refine ⟨b, List.mem_append_right _ (List.mem_singleton_self b), ?_⟩
      rw [hs]
      exact Setting.mem_fragments hf
  case heads =>
    intro b' hb' e he
    rw [hlist]
    rcases List.mem_append.1 hb' with hb' | hb'
    · obtain ⟨f, hf, hrest⟩ := h.heads b' hb' e he
      exact ⟨f, List.mem_append_left _ hf, hrest⟩
    · rw [List.mem_singleton.1 hb', hs, ← hheads] at he
      obtain ⟨f, hf, rfl⟩ := List.mem_map.1 he
      rw [List.mem_singleton.1 hb']
      exact ⟨f, List.mem_append_right _ hf, (hadded f hf).1, rfl⟩
  case edges =>
    intro i j
    rw [mem_edges_addBlock, h.edges]
    constructor
    · intro hor
      rcases hor with ⟨f, hf, n, hn, hrest⟩ | ⟨f, hf, hid, e, he, hheaded⟩
      · exact ⟨f, List.mem_append_left _ hf, n, List.mem_append_left _ hn, hrest⟩
      · obtain ⟨hfed, heb⟩ := Setting.mem_inBlock.1 he
        rw [hblock] at heb
        obtain ⟨n, hn, rfl, hnid⟩ := exists_of_headedBy? hheaded
        have hn' := (List.mem_append.1 hn).resolve_left fun hn => (hold n hn).2 heb
        refine ⟨f, List.mem_append_right _ hf, n, hn, hid, hnid, ?_, hflow ▸ hfed⟩
        rw [(hadded n hn').1, (hadded f hf).1]
    · intro hmem
      obtain ⟨f, hf, n, hn, hid, hnid, hsame, hfed⟩ := hmem
      rcases List.mem_append.1 hf with hf | hf
      · rcases List.mem_append.1 hn with hn | hn
        · exact .inl ⟨f, hf, n, hn, hid, hnid, hsame, hfed⟩
        · exact absurd (hsame.symm.trans (hadded n hn).1) (hold f hf).1
      · rcases List.mem_append.1 hn with hn' | hn'
        · exact absurd (hsame.trans (hadded f hf).1) (hold n hn').1
        · refine .inr ⟨f, hf, hid, n.head, Setting.mem_inBlock.2 ⟨hflow ▸ hfed, ?_⟩, ?_⟩
          · exact Setting.starts_subset (hadded n hn').2
          · rw [headedBy?_head honce hn, hnid]

theorem foldl_addBlock {done : List Block} (h : Divided g processor done fs)
    (hapart : (done ++ bs).Pairwise fun b b' => b.id ≠ b'.id ∧ ∀ e ∈ b'.elements, e ∉ b.elements) :
    Divided g processor (done ++ bs)
      (bs.foldl (fun fs block => fs.addBlock { flow := g, block, processor }) fs) := by
  induction bs generalizing done fs with
  | nil => rwa [List.append_nil]
  | cons b bs ih =>
    have hnew := fun b' hb' => (List.pairwise_append.1 hapart).2.2 b' hb' b List.mem_cons_self
    rw [List.append_cons] at hapart ⊢
    exact ih (h.addBlock hnew) hapart

/-- A fragment is found at the position of its number. -/
theorem getElem?_id (h : Divided g processor bs fs) (hf : f ∈ fs.list) :
    fs.list[f.id]? = some f := by
  obtain ⟨i, hi, rfl⟩ := List.getElem_of_mem hf
  have hid : fs.list[i].id = i := by
    have hget : (fs.list.map (·.id))[i]? = some i := by
      rw [h.ids, List.getElem?_range hi]
    rw [List.getElem?_map, List.getElem?_eq_getElem hi] at hget
    exact Option.some.inj hget
  rw [hid, List.getElem?_eq_getElem hi]

theorem outputsOf_id (h : Divided g processor bs fs) (hf : f ∈ fs.list) :
    fs.outputsOf f.id = f.outputs := by
  rw [outputsOf, h.getElem?_id hf]
  rfl

theorem eq_of_id_eq (h : Divided g processor bs fs) {n : Fragment} (hf : f ∈ fs.list)
    (hn : n ∈ fs.list) (hid : f.id = n.id) : f = n := by
  have hget := h.getElem?_id hf
  rw [hid, h.getElem?_id hn] at hget
  exact (Option.some.inj hget).symm

/-- What is found among the outputs of a number is an output of the fragment with that number. -/
theorem exists_of_mem_outputsOf (h : Divided g processor bs fs) {i : FragmentId} {u : PortId}
    (hu : u ∈ fs.outputsOf i) : ∃ f ∈ fs.list, f.id = i ∧ u ∈ f.outputs := by
  rw [outputsOf] at hu
  cases hf : fs.list[i]? with
  | none =>
    rw [hf] at hu
    cases hu
  | some f =>
    obtain ⟨hi, rfl⟩ := List.getElem?_eq_some_iff.1 hf
    have hid : (fs.list.map (·.id))[i]? = some i := by rw [h.ids, List.getElem?_range hi]
    rw [List.getElem?_map, hf] at hid
    rw [hf] at hu
    exact ⟨fs.list[i], List.getElem_mem hi, Option.some.inj hid, hu⟩

end Divided

/-! ## Fragments and the elements they lead to -/

/-- An element of a block feeds another. -/
def Inside (g : FlowGraph) (b : Block) (e n : ElementId) : Prop :=
  n ∈ g.successors e ∧ n ∈ b.elements

/-- The fragment with the first number feeds the one with the second. -/
abbrev Edge (fs : Fragments) : FragmentId → FragmentId → Prop :=
  Search.Step fs.fedBy (fs.list.map (·.id))

theorem mem_fedBy : j ∈ fs.fedBy i ↔ (i, j) ∈ fs.edges := by
  simp [fedBy]

theorem mem_feeding : i ∈ fs.feeding j ↔ (i, j) ∈ fs.edges := by
  simp [feeding]

theorem mem_flatMap_oppositeOwners (h : g.Coherent) {x : Element} (hx : x ∈ g.elements)
    {n : ElementId} :
    n ∈ x.outputIds.flatMap g.oppositeOwners ↔ n ∈ g.successors x.id := by
  rw [List.mem_flatMap, h.mem_successors hx]
  constructor
  · intro hmem
    obtain ⟨u, hu, hn⟩ := hmem
    have hport := FlowGraph.isOutputPort_iff.2 ⟨x, hx, hu⟩
    obtain ⟨y, hy, hid, d, hd, hc⟩ := (h.mem_oppositeOwners hport).1 hn
    exact ⟨y, hy, hid, _, hc, hu, hd⟩
  · intro hmem
    obtain ⟨y, hy, hid, c, hc, hu, hd⟩ := hmem
    have hport := FlowGraph.isOutputPort_iff.2 ⟨x, hx, hu⟩
    exact ⟨c.source, hu, (h.mem_oppositeOwners hport).2 ⟨y, hy, hid, c.target, hd, hc⟩⟩

/-- The blocks are of elements of the graph, and each has a number of its own. -/
structure AreBlocks (g : FlowGraph) (bs : List Block) : Prop where
  inGraph : ∀ b ∈ bs, ∀ e ∈ b.elements, ∃ x ∈ g.elements, x.id = e
  eq_of_id_eq : ∀ b ∈ bs, ∀ b' ∈ bs, b.id = b'.id → b = b'

section Reach

variable {level : ElementId → Nat} (h : g.Coherent) (hlevel : g.IsLevelling level)
  (hbs : AreBlocks g bs) (hd : Divided g processor bs fs)

include h hbs hd

/-- The elements of a fragment, and its last one. -/
theorem Divided.exists_last (hf : f ∈ fs.list) : ∃ b ∈ bs, f.block = b.id ∧
    f.head ∈ (Setting.mk g b processor).starts ∧
    (∀ n, n ∈ f.elements ↔ ReflTransGen (Setting.mk g b processor).GoesOn f.head n) ∧
    ∃ x ∈ g.elements, f.elements.getLast? = some x.id ∧ f.outputs = x.outputIds := by
  obtain ⟨b, hb, e, he, heq⟩ := hd.fragments f hf
  have hchain := Setting.follows_chainFrom (s := Setting.mk g b processor) h (hbs.inGraph b hb) he
  have helems : f.elements = (Setting.mk g b processor).chainFrom e := by
    rw [heq, Setting.elements_fragment]
  have hhead : f.head = e := by rw [heq, Setting.head_fragment]
  obtain ⟨n, hn⟩ : ∃ n, ((Setting.mk g b processor).chainFrom e).getLast? = some n :=
    Option.isSome_iff_exists.1 (by
      rw [List.getLast?_isSome]
      exact List.ne_nil_of_mem (hchain.mem_iff.2 .refl))
  have hpath := hchain.mem_iff.1 (List.mem_of_getLast? hn)
  obtain ⟨x, hx, rfl⟩ := hbs.inGraph b hb n (Setting.mem_of_goesOn (Setting.starts_subset he) hpath)
  refine ⟨b, hb, by rw [heq]; rfl, hhead ▸ he, ?_, x, hx, helems ▸ hn, ?_⟩
  · rw [helems, hhead]
    exact fun _ => hchain.mem_iff
  · rw [heq]
    show ((((Setting.mk g b processor).chainFrom e).getLast?.map g.outputsOf).getD []).map (·.id)
      = _
    rw [hn, Option.map_some, Option.getD_some, h.outputsOf_eq hx]
    rfl

omit h hbs hd in
theorem inside_of_goesOn {n : ElementId}
    (hpath : ReflTransGen (Setting.mk g b processor).GoesOn e n) :
    ReflTransGen (Inside g b) e n := by
  refine ReflTransGen.mono (fun a m hstep => ?_) e n hpath
  exact Setting.mem_inBlock.1 hstep.mem_successors

theorem Divided.head_mem_elements (hf : f ∈ fs.list) : f.head ∈ f.elements := by
  obtain ⟨_, -, -, -, helems, -⟩ := hd.exists_last h hbs hf
  exact (helems _).2 .refl

/-- What one fragment feeds begins behind an element of it. -/
theorem Divided.mem_successors_of_mem_edges (hij : (i, j) ∈ fs.edges) :
    ∃ f ∈ fs.list, ∃ n ∈ fs.list, f.id = i ∧ n.id = j ∧ n.block = f.block ∧
      ∃ e ∈ f.elements, n.head ∈ g.successors e := by
  obtain ⟨f, hf, n, hn, hfi, hnj, hsame, hfed⟩ := (hd.edges i j).1 hij
  obtain ⟨b, hb, -, -, -, x, hx, hlast, hout⟩ := hd.exists_last h hbs hf
  rw [hout, mem_flatMap_oppositeOwners h hx] at hfed
  exact ⟨f, hf, n, hn, hfi, hnj, hsame, x.id, List.mem_of_getLast? hlast, hfed⟩

theorem Divided.mem_elements (hb : b ∈ bs) (hf : f ∈ fs.list) (hfb : f.block = b.id)
    (he : e ∈ f.elements) : e ∈ b.elements := by
  obtain ⟨b', hb', hfb', hhead, helems, -⟩ := hd.exists_last h hbs hf
  obtain rfl := hbs.eq_of_id_eq b hb b' hb' (hfb.symm.trans hfb')
  exact Setting.mem_of_goesOn (Setting.starts_subset hhead) ((helems e).1 he)

theorem Divided.inside_of_mem_edges (hij : (i, j) ∈ fs.edges) :
    ∃ b ∈ bs, ∃ f ∈ fs.list, ∃ n ∈ fs.list, f.id = i ∧ n.id = j ∧ f.block = b.id ∧
      n.block = b.id ∧ f.head ∈ b.elements ∧ TransGen (Inside g b) f.head n.head := by
  obtain ⟨f, hf, n, hn, hfi, hnj, hsame, e, he, hfed⟩ :=
    hd.mem_successors_of_mem_edges h hbs hij
  obtain ⟨b, hb, hfb, hhead, helems, -⟩ := hd.exists_last h hbs hf
  obtain ⟨b', hb', hnb, hnhead⟩ := hd.head_mem hn
  obtain rfl := hbs.eq_of_id_eq b hb b' hb' (by rw [← hfb, ← hnb, hsame])
  exact ⟨b, hb, f, hf, n, hn, hfi, hnj, hfb, hnb, Setting.starts_subset hhead,
    .tail' (inside_of_goesOn ((helems e).1 he)) ⟨hfed, Setting.starts_subset hnhead⟩⟩

/-- Fragments are reached inside of a block. -/
theorem Divided.inside_of_edges (hf : f ∈ fs.list) (hpath : ReflTransGen (Edge fs) f.id j) :
    ∃ n ∈ fs.list, n.id = j ∧ ∃ b ∈ bs, f.block = b.id ∧ n.block = b.id ∧
      ReflTransGen (Inside g b) f.head n.head := by
  induction hpath with
  | refl =>
    obtain ⟨b, hb, hfb, -⟩ := hd.head_mem hf
    exact ⟨f, hf, rfl, b, hb, hfb, hfb, .refl⟩
  | tail _ hstep ih =>
    obtain ⟨n, hn, rfl, b, hb, hfb, hnb, hpath⟩ := ih
    obtain ⟨b', hb', n', hn', m, hm, hid, hmid, hnb', hmb, -, hnext⟩ :=
      hd.inside_of_mem_edges h hbs (mem_fedBy.1 hstep.1)
    obtain rfl := hd.eq_of_id_eq hn' hn hid
    obtain rfl := hbs.eq_of_id_eq b hb b' hb' (hnb.symm.trans hnb')
    exact ⟨m, hm, hmid, b, hb, hfb, hmb, hpath.trans hnext.to_reflTransGen⟩

/-- An element of a block is in one fragment. -/
theorem Divided.eq_of_mem_elements {n : Fragment} (hf : f ∈ fs.list) (hn : n ∈ fs.list)
    (hsame : f.block = n.block) (he : e ∈ f.elements) (he' : e ∈ n.elements) : f = n := by
  obtain ⟨b, hb, hfb, hhead, helems, -⟩ := hd.exists_last h hbs hf
  obtain ⟨b', hb', hnb, hhead', helems', -⟩ := hd.exists_last h hbs hn
  obtain rfl := hbs.eq_of_id_eq b hb b' hb' (by rw [← hfb, ← hnb, hsame])
  exact List.inj_on_of_nodup_map hd.headsOnce hf hn
    (Setting.start_unique h (hbs.inGraph b hb) hhead hhead' ((helems e).1 he) ((helems' e).1 he'))

/-- The element where a fragment does not go on has its outputs. -/
theorem Divided.outputs_eq (hb : b ∈ bs) (hf : f ∈ fs.list) (hfb : f.block = b.id) {x : Element}
    (hx : x ∈ g.elements) (hxf : x.id ∈ f.elements)
    (hlast : ∀ n, ¬ (Setting.mk g b processor).GoesOn x.id n) : f.outputs = x.outputIds := by
  obtain ⟨b', hb', e, -, heq⟩ := hd.fragments f hf
  obtain rfl := hbs.eq_of_id_eq b hb b' hb' (by rw [← hfb, heq]; rfl)
  have helems : f.elements = (Setting.mk g b processor).chainFrom e := by
    rw [heq, Setting.elements_fragment]
  obtain ⟨-, -, -, -, -, y, hy, hend, hout⟩ := hd.exists_last h hbs hf
  rw [helems, Setting.getLast?_chainFrom (helems ▸ hxf) hlast] at hend
  rw [hout, h.eq_of_id_eq hy hx (Option.some.inj hend).symm]

/-- Where a chain is left at its last element, another one begins. -/
theorem Divided.edge_of_start (hb : b ∈ bs) (hf : f ∈ fs.list) (hfb : f.block = b.id)
    {x : Element} (hx : x ∈ g.elements) (hxf : x.id ∈ f.elements) {n : ElementId}
    (hstep : Inside g b x.id n) (hn : n ∈ (Setting.mk g b processor).starts) :
    ∃ m ∈ fs.list, m.block = b.id ∧ m.head = n ∧ Edge fs f.id m.id := by
  obtain ⟨m, hm, hmb, rfl⟩ := hd.heads b hb n hn
  refine ⟨m, hm, hmb, rfl, mem_fedBy.2 ((hd.edges _ _).2 ⟨f, hf, m, hm, rfl, rfl, ?_, ?_⟩),
    List.mem_map_of_mem hm⟩
  · rw [hmb, hfb]
  · have hout := hd.outputs_eq h hbs hb hf hfb hx hxf fun k hgoes => by
      have hmem : m.head ∈ (Setting.mk g b processor).successors x.id :=
        Setting.mem_inBlock.2 hstep
      rw [hgoes.only, List.mem_singleton] at hmem
      exact hgoes.begins (hmem ▸ hn)
    rw [hout, mem_flatMap_oppositeOwners h hx]
    exact hstep.1

/-- Where an element of one fragment feeds an element of another in its block, the second fragment
begins there. -/
theorem Divided.mem_edges_of_mem_successors {n : Fragment} (hf : f ∈ fs.list) (hn : n ∈ fs.list)
    (hsame : f.block = n.block) (hne : f ≠ n) {a : ElementId} (he : e ∈ f.elements)
    (ha : a ∈ n.elements) (hfed : a ∈ g.successors e) : (f.id, n.id) ∈ fs.edges := by
  obtain ⟨b, hb, hfb, hhead, helems, -⟩ := hd.exists_last h hbs hf
  obtain ⟨b', hb', hnb, hhead', helems', -⟩ := hd.exists_last h hbs hn
  obtain rfl := hbs.eq_of_id_eq b hb b' hb' (by rw [← hfb, ← hnb, hsame])
  have heb := Setting.mem_of_goesOn (Setting.starts_subset hhead) ((helems e).1 he)
  have hab := Setting.mem_of_goesOn (Setting.starts_subset hhead') ((helems' a).1 ha)
  have hstep : Inside g b e a := ⟨hfed, hab⟩
  by_cases hstart : a ∈ (Setting.mk g b processor).starts
  · obtain ⟨x, hx, rfl⟩ := hbs.inGraph b hb e heb
    obtain ⟨m, hm, hmb, rfl, hedge⟩ := hd.edge_of_start h hbs hb hf hfb hx he hstep hstart
    have hmn : m.head = n.head :=
      Setting.start_unique h (hbs.inGraph b hb) hstart hhead' .refl ((helems' _).1 ha)
    obtain rfl := List.inj_on_of_nodup_map hd.headsOnce hm hn hmn
    exact mem_fedBy.1 hedge.1
  · have hgoes := Setting.goesOn_of_mem_successors (s := Setting.mk g b processor) h
      (hbs.inGraph b hb) heb (Setting.mem_inBlock.2 hstep) hstart
    exact absurd (hd.eq_of_mem_elements h hbs hf hn hsame
      ((helems a).2 (((helems e).1 he).tail hgoes)) ha) hne

/-- What an element at the start of a fragment leads to inside of the block is in a fragment that is
reached. -/
theorem Divided.edges_of_inside (hb : b ∈ bs) (he : e ∈ (Setting.mk g b processor).starts)
    {n : ElementId} (hpath : ReflTransGen (Inside g b) e n) :
    ∃ f ∈ fs.list, f.head = e ∧ ∃ m ∈ fs.list, n ∈ m.elements ∧ m.block = b.id ∧
      ReflTransGen (Edge fs) f.id m.id := by
  induction hpath with
  | refl =>
    obtain ⟨f, hf, hfb, rfl⟩ := hd.heads b hb e he
    exact ⟨f, hf, rfl, f, hf, hd.head_mem_elements h hbs hf, hfb, .refl⟩
  | @tail a n hpath hstep ih =>
    obtain ⟨f, hf, hfe, m, hm, ha, hmb, hedges⟩ := ih
    obtain ⟨b', hb', hmb', hhead, helems, -⟩ := hd.exists_last h hbs hm
    obtain rfl := hbs.eq_of_id_eq b hb b' hb' (hmb.symm.trans hmb')
    have hab := Setting.mem_of_goesOn (Setting.starts_subset hhead) ((helems a).1 ha)
    by_cases hn : n ∈ (Setting.mk g b processor).starts
    · obtain ⟨x, hx, rfl⟩ := hbs.inGraph b hb a hab
      obtain ⟨m', hm', hmb', rfl, hedge⟩ :=
        hd.edge_of_start h hbs hb hm hmb hx ha hstep hn
      exact ⟨f, hf, hfe, m', hm', hd.head_mem_elements h hbs hm', hmb', hedges.tail hedge⟩
    · have hgoes := Setting.goesOn_of_mem_successors (s := Setting.mk g b processor) h
        (hbs.inGraph b hb) hab (Setting.mem_inBlock.2 hstep) hn
      exact ⟨f, hf, hfe, m, hm, (helems n).2 (((helems a).1 ha).tail hgoes), hmb, hedges⟩

/-! ## Fragments where the graph has levels -/

include hlevel

omit hd in
theorem level_lt_of_inside (hb : b ∈ bs) {n : ElementId} (he : e ∈ b.elements)
    (hpath : TransGen (Inside g b) e n) : level e < level n := by
  have hstep : ∀ {a m}, a ∈ b.elements → Inside g b a m → level a < level m := fun ha hm =>
    Setting.lt_of_mem_successors (s := Setting.mk g b fun _ => .empty) h (hbs.inGraph b hb) hlevel
      ha (Setting.mem_inBlock.2 hm)
  induction hpath with
  | single hm => exact hstep he hm
  | @tail m _ hpath hm ih =>
    have hmid : m ∈ b.elements := by
      obtain ⟨_, -, hin⟩ := TransGen.tail'_iff.1 hpath
      exact hin.2
    exact Nat.lt_trans ih (hstep hmid hm)

/-- Edges join fragments of a block where an element of the one feeds an element of the other. -/
theorem Divided.mem_edges_iff {n : Fragment} (hf : f ∈ fs.list) (hn : n ∈ fs.list)
    (hsame : f.block = n.block) : (f.id, n.id) ∈ fs.edges ↔
      f ≠ n ∧ ∃ e ∈ f.elements, ∃ a ∈ n.elements, a ∈ g.successors e := by
  constructor
  · intro hedge
    refine ⟨?_, ?_⟩
    · rintro rfl
      obtain ⟨b, hb, f', hf', n', hn', hid, hid', -, -, hhead, hpath⟩ :=
        hd.inside_of_mem_edges h hbs hedge
      obtain rfl := hd.eq_of_id_eq hf' hf hid
      obtain rfl := hd.eq_of_id_eq hn' hf' hid'
      exact Nat.lt_irrefl _ (level_lt_of_inside h hlevel hbs hb hhead hpath)
    · obtain ⟨f', hf', n', hn', hid, hid', -, e, he, hfed⟩ :=
        hd.mem_successors_of_mem_edges h hbs hedge
      obtain rfl := hd.eq_of_id_eq hf' hf hid
      obtain rfl := hd.eq_of_id_eq hn' hn hid'
      exact ⟨e, he, n'.head, hd.head_mem_elements h hbs hn', hfed⟩
  · intro hfeeds
    obtain ⟨hne, e, he, a, ha, hfed⟩ := hfeeds
    exact hd.mem_edges_of_mem_successors h hbs hf hn hsame hne he ha hfed

/-- Of two fragments the one that feeds the other comes first. -/
theorem Divided.order_left (ids : List FragmentId) :
    (Precedence.order fs.feeding ids).2 = [] := by
  refine Precedence.order_left_eq_nil
    (fun i => ((fs.list[i]?).map fun f => level f.head).getD 0) fun j _ i hi _ => ?_
  obtain ⟨b, hb, f, hf, n, hn, rfl, rfl, -, -, he, hpath⟩ :=
    hd.inside_of_mem_edges h hbs (mem_feeding.1 hi)
  simp only [hd.getElem?_id hf, hd.getElem?_id hn, Option.map_some, Option.getD_some]
  exact level_lt_of_inside h hlevel hbs hb he hpath

/-- No fragment that is reached is left out of the order. -/
theorem Divided.orderedFrom_perm (heads : List FragmentId) :
    (fs.orderedFrom heads).Perm
      (ascending (Search.reach fs.fedBy (fs.list.map (·.id)) heads)) := by
  have hperm := Precedence.order_perm fs.feeding
    (ascending (Search.reach fs.fedBy (fs.list.map (·.id)) heads))
  rwa [hd.order_left h hlevel hbs, List.append_nil] at hperm

theorem Divided.mem_orderedFrom {heads : List FragmentId} :
    j ∈ fs.orderedFrom heads ↔
      ∃ i ∈ heads, i ∈ fs.list.map (·.id) ∧ ReflTransGen (Edge fs) i j := by
  rw [(hd.orderedFrom_perm h hlevel hbs heads).mem_iff, mem_ascending, Search.mem_reach]

theorem Divided.orderedFrom_nodup (heads : List FragmentId) : (fs.orderedFrom heads).Nodup :=
  (hd.orderedFrom_perm h hlevel hbs heads).nodup_iff.2 (ascending_nodup _)

/-- A fragment stands behind those that feed it and in front of all greater ones that could have its
place. -/
theorem Divided.orderedFrom_places {heads before behind : List FragmentId}
    (hsplit : fs.orderedFrom heads = before ++ i :: behind) :
    (∀ k ∈ fs.orderedFrom heads, (k, i) ∈ fs.edges → k ∈ before) ∧
      ∀ j ∈ behind, (∀ k ∈ fs.orderedFrom heads, (k, j) ∈ fs.edges → k ∈ before) → i < j := by
  have hperm := hd.orderedFrom_perm h hlevel hbs heads
  have hn := hd.orderedFrom_nodup h hlevel hbs heads
  obtain ⟨hfed, hsmallest⟩ := Precedence.order_places (ascending_pairwise _) hsplit
  rw [hsplit] at hn
  obtain ⟨-, hbehind, hapart⟩ := List.nodup_append.1 hn
  refine ⟨fun k hk hedge => hfed k (mem_feeding.2 hedge) (hperm.mem_iff.1 hk),
    fun j hj hready => ?_⟩
  have hmem : j ∈ fs.orderedFrom heads :=
    hsplit ▸ List.mem_append_right _ (List.mem_cons_of_mem _ hj)
  have hle : i ≤ j := hsmallest j (hperm.mem_iff.1 hmem)
    (fun hbefore => hapart j hbefore j (List.mem_cons_of_mem _ hj) rfl)
    fun k hk hcandidate => hready k (hperm.mem_iff.2 hcandidate) (mem_feeding.1 hk)
  have hne : i ≠ j := by
    rintro rfl
    exact (List.nodup_cons.1 hbehind).1 hj
  exact Nat.lt_of_le_of_ne hle hne

end Reach

end Fragments
end FlowPlan
