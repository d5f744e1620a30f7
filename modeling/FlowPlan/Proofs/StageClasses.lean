import FlowPlan.Proofs.DisjointSets
import FlowPlan.Proofs.Routes
import Mathlib.Data.List.Nodup

/-!
Which blocks share a stage.

Two blocks are joined when one shuffles into the other, or when both are map blocks that read the
same data.  The blocks of a stage are those that such joins connect, so whatever is the same for
joined blocks is the same throughout a stage.  `leaderOf_eq_iff` says so with the smallest
equivalence that holds between joined blocks.
-/

namespace FlowPlan

/-! ## Grouping -/

section Grouping

variable {α κ : Type}

theorem mem_groupByKey [DecidableEq κ] {key : α → κ} {xs : List α} {group : κ × List α} :
    group ∈ groupByKey key xs ↔
      (∃ x ∈ xs, key x = group.1) ∧ group.2 = xs.filter (key · = group.1) := by
  rw [groupByKey, List.mem_map]
  constructor
  · intro h
    obtain ⟨k, hk, rfl⟩ := h
    exact ⟨List.mem_map.1 (List.mem_eraseDups.1 hk), rfl⟩
  · intro h
    obtain ⟨hk, hitems⟩ := h
    exact ⟨group.1, List.mem_eraseDups.2 (List.mem_map.2 hk), by rw [← hitems]⟩

theorem mem_of_mem_adjacent {xs : List α} {pair : α × α} (h : pair ∈ adjacent xs) :
    pair.1 ∈ xs ∧ pair.2 ∈ xs :=
  have hzip := List.of_mem_zip h
  ⟨hzip.1, List.mem_of_mem_tail hzip.2⟩

/-- What neighbours in a list have in common all members have. -/
theorem eq_of_adjacent {f : α → κ} (xs : List α) (h : ∀ pair ∈ adjacent xs, f pair.1 = f pair.2) :
    ∀ x ∈ xs, ∀ y ∈ xs, f x = f y := by
  induction xs with
  | nil => simp
  | cons a xs ih =>
    have hfirst : ∀ y ∈ xs, f a = f y := by
      cases xs with
      | nil => simp
      | cons b xs =>
        have hab : f a = f b := h (a, b) List.mem_cons_self
        have hrest := ih fun pair hp => h pair (List.mem_cons_of_mem _ hp)
        exact fun y hy => hab.trans (hrest b List.mem_cons_self y hy)
    have hall : ∀ y ∈ a :: xs, f a = f y := by
      intro y hy
      rcases List.mem_cons.1 hy with rfl | hy
      · rfl
      · exact hfirst y hy
    exact fun x hx y hy => (hall x hx).symm.trans (hall y hy)

end Grouping

theorem mem_ascending {n : Nat} {ns : List Nat} : n ∈ ascending ns ↔ n ∈ ns := by
  rw [ascending, List.mem_mergeSort, List.mem_eraseDups]

theorem ascending_nodup (ns : List Nat) : (ascending ns).Nodup :=
  (List.mergeSort_perm _ _).nodup_iff.2 (nodup_eraseDups ns)

theorem ascending_pairwise (ns : List Nat) : (ascending ns).Pairwise (· < ·) := by
  have hsorted : (ascending ns).Pairwise fun a b => decide (a ≤ b) = true :=
    List.pairwise_mergeSort (fun a b c hab hbc => by simp at *; omega)
      (fun a b => by simp; omega) ns.eraseDups
  exact (hsorted.and (ascending_nodup ns)).imp fun hab =>
    Nat.lt_of_le_of_ne (of_decide_eq_true hab.1) hab.2

/-- The ascending list tells the members and nothing else. -/
theorem ascending_congr {ns ms : List Nat} (h : ∀ n, n ∈ ns ↔ n ∈ ms) :
    ascending ns = ascending ms := by
  refine List.Perm.eq_of_pairwise (fun a b _ _ hab hba => absurd hab (Nat.lt_asymm hba))
    (ascending_pairwise ns) (ascending_pairwise ms) ?_
  refine (List.perm_ext_iff_of_nodup (ascending_nodup ns) (ascending_nodup ms)).2 fun n => ?_
  rw [mem_ascending, mem_ascending]
  exact h n

namespace StageGraph

open FlowGraph

/-! ## The ends of links -/

/-- A block connection with the blocks that it joins. -/
def Joins (sg : StageGraph) (c : Connection) (u d : BlockId) : Prop :=
  sg.blockOfPort? c.source = some u ∧ sg.blockOfPort? c.target = some d

/-- A block reads what leaves the port. -/
def Reads (sg : StageGraph) (b : BlockId) (p : PortId) : Prop :=
  ∃ c ∈ sg.connections, c.source = p ∧ sg.blockOfPort? c.target = some b

/-- Blocks that have to run together. -/
inductive MustShare (sg : StageGraph) : BlockId → BlockId → Prop
  /-- A map block and a reduce block that it shuffles into. -/
  | shuffle {c : Connection} {m r : BlockId} (hc : c ∈ sg.connections) (hj : sg.Joins c m r)
      (hm : sg.isMap m = true) (hr : sg.isReduce r = true) : MustShare sg m r
  /-- Map blocks that read the same data, and read any. -/
  | readers {m m' : BlockId} (hm : sg.isMap m = true) (hm' : sg.isMap m' = true)
      (hreads : ∃ p, sg.Reads m p) (hsame : ∀ p, sg.Reads m p ↔ sg.Reads m' p) :
      MustShare sg m m'

variable {g : FlowGraph} {l : Link} {b b' : Block}

theorem source_mem_blocksOf (hl : l ∈ linksOf g) : l.source ∈ blocksOf g := (mem_linksOf.1 hl).1

theorem target_mem_blocksOf (hl : l ∈ linksOf g) : l.target ∈ blocksOf g :=
  List.mem_of_find?_eq_some (mem_linksOf.1 hl).2.2.2.2

theorem blockOfPort?_target (hl : l ∈ linksOf g) :
    (plan g).1.blockOfPort? l.connection.target = some l.target.id := by
  show ((blocksOf g).find? _).map _ = _
  rw [(mem_linksOf.1 hl).2.2.2.2]
  rfl

theorem joins_of_mem_linksOf (h : g.Coherent) (hl : l ∈ linksOf g) :
    (plan g).1.Joins l.connection l.source.id l.target.id := by
  refine ⟨?_, blockOfPort?_target hl⟩
  show ((blocksOf g).find? _).map _ = _
  rw [find?_port h (source_mem_blocksOf hl) (List.mem_append_right _ (mem_linksOf.1 hl).2.1)]
  rfl

/-- Every block connection is a link between the blocks that it joins. -/
theorem exists_link (h : g.Coherent) {c : Connection} {u d : BlockId}
    (hc : c ∈ (plan g).1.connections) (hj : (plan g).1.Joins c u d) :
    ∃ l ∈ linksOf g, l.connection = c ∧ l.source.id = u ∧ l.target.id = d := by
  obtain ⟨l, hl, rfl⟩ := List.mem_map.1 hc
  obtain ⟨hu, hd⟩ := joins_of_mem_linksOf h hl
  exact ⟨l, hl, rfl, Option.some.inj (hu.symm.trans hj.1), Option.some.inj (hd.symm.trans hj.2)⟩

theorem isMap_plan (hb : b ∈ blocksOf g) : (plan g).1.isMap b.id = b.isMap := by
  show ((blocksOf g)[b.id]?).any _ = _
  rw [getElem?_blocksOf hb, Option.any_some]

theorem isReduce_plan (hb : b ∈ blocksOf g) : (plan g).1.isReduce b.id = b.isReduce := by
  show ((blocksOf g)[b.id]?).any _ = _
  rw [getElem?_blocksOf hb, Option.any_some]

theorem exists_block_of_isMap {i : BlockId} (hi : (plan g).1.isMap i = true) :
    ∃ b ∈ blocksOf g, b.id = i ∧ b.isMap = true := by
  obtain ⟨b, hget, hmap⟩ := (Option.any_eq_true _ _).1 hi
  exact ⟨b, List.mem_of_getElem? hget, id_of_getElem?_blocksOf hget, hmap⟩

theorem mem_readSet {p : PortId} :
    p ∈ readSet (linksOf g) b ↔ (plan g).1.Reads b.id p := by
  rw [readSet, mem_ascending, List.mem_map]
  constructor
  · intro hmem
    obtain ⟨l, hl, rfl⟩ := hmem
    obtain ⟨hl, hid⟩ := List.mem_filter.1 hl
    refine ⟨l.connection, List.mem_map_of_mem hl, rfl, ?_⟩
    rw [blockOfPort?_target hl, eq_of_beq hid]
  · intro hreads
    obtain ⟨c, hc, rfl, ht⟩ := hreads
    obtain ⟨l, hl, rfl⟩ := List.mem_map.1 hc
    rw [blockOfPort?_target hl] at ht
    exact ⟨l, List.mem_filter.2 ⟨hl, beq_iff_eq.2 (Option.some.inj ht)⟩, rfl⟩

/-! ## Joined blocks -/

/-- Map blocks that read the same data, and read any. -/
def ReadAlike (links : List Link) (b b' : Block) : Prop :=
  b.isMap = true ∧ b'.isMap = true ∧ readSet links b ≠ [] ∧ readSet links b = readSet links b'

theorem mem_joins {blocks : List Block} {links : List Link} {pair : BlockId × BlockId}
    (hp : pair ∈ joins blocks links) :
    (∃ l ∈ links, l.isShuffle = true ∧ pair = (l.source.id, l.target.id)) ∨
      ∃ b ∈ blocks, ∃ b' ∈ blocks, ReadAlike links b b' ∧ pair = (b.id, b'.id) := by
  rcases List.mem_append.1 hp with hp | hp
  · obtain ⟨l, hl, rfl⟩ := List.mem_map.1 hp
    obtain ⟨hl, hs⟩ := List.mem_filter.1 hl
    exact .inl ⟨l, hl, hs, rfl⟩
  · obtain ⟨⟨key, items⟩, hgroup, hpair⟩ := List.mem_flatMap.1 hp
    have hitems := (mem_groupByKey.1 hgroup).2
    dsimp only at hitems hpair
    have hitem : ∀ i ∈ items.map (·.id), ∃ b ∈ blocks, b.isMap = true ∧
        readSet links b ≠ [] ∧ readSet links b = key ∧ b.id = i := by
      intro i hi
      obtain ⟨b, hb, rfl⟩ := List.mem_map.1 hi
      rw [hitems] at hb
      simp only [List.mem_filter, Bool.and_eq_true, Bool.not_eq_true', List.isEmpty_eq_false_iff,
        decide_eq_true_eq] at hb
      exact ⟨b, hb.1.1, hb.1.2.1, hb.1.2.2, hb.2, rfl⟩
    obtain ⟨hfst, hsnd⟩ := mem_of_mem_adjacent hpair
    obtain ⟨b, hb, hmap, hne, hkey, hid⟩ := hitem _ hfst
    obtain ⟨b', hb', hmap', -, hkey', hid'⟩ := hitem _ hsnd
    exact .inr ⟨b, hb, b', hb', ⟨hmap, hmap', hne, hkey.trans hkey'.symm⟩, by rw [hid, hid']⟩

theorem shuffle_mem_joins {blocks : List Block} {links : List Link} (hl : l ∈ links)
    (hs : l.isShuffle = true) : (l.source.id, l.target.id) ∈ joins blocks links :=
  List.mem_append_left _ (List.mem_map.2 ⟨l, List.mem_filter.2 ⟨hl, hs⟩, rfl⟩)

/-- What joined blocks have in common, map blocks that read the same data have. -/
theorem eq_of_readAlike {blocks : List Block} {links : List Link} {κ : Type} {f : BlockId → κ}
    (hf : ∀ pair ∈ joins blocks links, f pair.1 = f pair.2) (hb : b ∈ blocks) (hb' : b' ∈ blocks)
    (h : ReadAlike links b b') : f b.id = f b'.id := by
  obtain ⟨hmap, hmap', hne, heq⟩ := h
  let readers := blocks.filter fun b => b.isMap && !(readSet links b).isEmpty
  let items := readers.filter (readSet links · = readSet links b)
  have hreader : b ∈ readers := List.mem_filter.2 ⟨hb, by simp [hmap, hne]⟩
  have hreader' : b' ∈ readers := List.mem_filter.2 ⟨hb', by simp [hmap', ← heq, hne]⟩
  have hgroup : (readSet links b, items) ∈ commonReaders blocks links :=
    mem_groupByKey.2 ⟨⟨b, hreader, rfl⟩, rfl⟩
  refine eq_of_adjacent (items.map (·.id)) (fun pair hp => hf pair ?_) b.id ?_ b'.id ?_
  · exact List.mem_append_right _ (List.mem_flatMap.2 ⟨_, hgroup, hp⟩)
  · exact List.mem_map_of_mem (List.mem_filter.2 ⟨hreader, decide_eq_true rfl⟩)
  · exact List.mem_map_of_mem (List.mem_filter.2 ⟨hreader', decide_eq_true heq.symm⟩)

/-! ## The leader of a block -/

/-- The smallest block of the stage of a block. -/
def leaderOf (g : FlowGraph) (b : BlockId) : BlockId := (classes (blocksOf g) (linksOf g)).root b

theorem leaderOf_spec (g : FlowGraph) :
    (∀ pair ∈ joins (blocksOf g) (linksOf g), leaderOf g pair.1 = leaderOf g pair.2) ∧
      ∀ {κ : Type} (f : BlockId → κ),
        (∀ pair ∈ joins (blocksOf g) (linksOf g), f pair.1 = f pair.2) →
          ∀ b, f (leaderOf g b) = f b := by
  have hsize := DisjointSets.size_singletons (blocksOf g).length
  have hbound : ∀ pair ∈ joins (blocksOf g) (linksOf g),
      pair.1 < (DisjointSets.singletons (blocksOf g).length).size ∧
        pair.2 < (DisjointSets.singletons (blocksOf g).length).size := by
    intro pair hp
    rw [hsize]
    rcases mem_joins hp with ⟨l, hl, -, rfl⟩ | ⟨b, hb, b', hb', -, rfl⟩
    · exact ⟨id_lt_of_mem_blocksOf (source_mem_blocksOf hl),
        id_lt_of_mem_blocksOf (target_mem_blocksOf hl)⟩
    · exact ⟨id_lt_of_mem_blocksOf hb, id_lt_of_mem_blocksOf hb'⟩
  obtain ⟨-, hpairs, hsound⟩ :=
    DisjointSets.unionAll_spec (DisjointSets.singletons_descends _) hbound
  exact ⟨hpairs, fun f hf => hsound f hf fun x => by rw [DisjointSets.root_singletons]⟩

theorem leaderOf_eq_of_shuffle (hl : l ∈ linksOf g) (hs : l.isShuffle = true) :
    leaderOf g l.source.id = leaderOf g l.target.id :=
  (leaderOf_spec g).1 _ (shuffle_mem_joins hl hs)

theorem leaderOf_eq_of_readAlike (hb : b ∈ blocksOf g) (hb' : b' ∈ blocksOf g)
    (h : ReadAlike (linksOf g) b b') : leaderOf g b.id = leaderOf g b'.id :=
  eq_of_readAlike (leaderOf_spec g).1 hb hb' h

/-! ## Joins in terms of the plan -/

theorem mustShare_of_mem_joins (h : g.Coherent) {pair : BlockId × BlockId}
    (hp : pair ∈ joins (blocksOf g) (linksOf g)) : (plan g).1.MustShare pair.1 pair.2 := by
  rcases mem_joins hp with ⟨l, hl, hs, rfl⟩ | ⟨b, hb, b', hb', ⟨hmap, hmap', hne, heq⟩, rfl⟩
  · rw [Link.isShuffle, Bool.and_eq_true] at hs
    refine .shuffle (List.mem_map_of_mem hl) (joins_of_mem_linksOf h hl) ?_ ?_
    · rw [isMap_plan (source_mem_blocksOf hl)]
      exact hs.1
    · rw [isReduce_plan (target_mem_blocksOf hl)]
      exact hs.2
  · obtain ⟨p, hp⟩ := List.exists_mem_of_ne_nil _ hne
    refine .readers (by rwa [isMap_plan hb]) (by rwa [isMap_plan hb']) ⟨p, mem_readSet.1 hp⟩
      fun p => ?_
    rw [← mem_readSet, ← mem_readSet, heq]

theorem leaderOf_eq_of_mustShare (h : g.Coherent) {u d : BlockId}
    (hshare : (plan g).1.MustShare u d) : leaderOf g u = leaderOf g d := by
  cases hshare with
  | shuffle hc hj hu hd =>
    obtain ⟨l, hl, rfl, rfl, rfl⟩ := exists_link h hc hj
    rw [isMap_plan (source_mem_blocksOf hl)] at hu
    rw [isReduce_plan (target_mem_blocksOf hl)] at hd
    exact leaderOf_eq_of_shuffle hl (by rw [Link.isShuffle, hu, hd]; rfl)
  | readers hu hd hreads hsame =>
    obtain ⟨b, hb, rfl, hmap⟩ := exists_block_of_isMap hu
    obtain ⟨b', hb', rfl, hmap'⟩ := exists_block_of_isMap hd
    obtain ⟨p, hp⟩ := hreads
    have hne : readSet (linksOf g) b ≠ [] := List.ne_nil_of_mem (mem_readSet.2 hp)
    have heq : readSet (linksOf g) b = readSet (linksOf g) b' := by
      refine ascending_congr fun p => ?_
      have hmem := (mem_readSet (b := b)).trans ((hsame p).trans (mem_readSet (b := b')).symm)
      rwa [readSet, readSet, mem_ascending, mem_ascending] at hmem
    exact leaderOf_eq_of_readAlike hb hb' ⟨hmap, hmap', hne, heq⟩

/-- Blocks have the same leader exactly if a chain of joins connects them. -/
theorem leaderOf_eq_iff (h : g.Coherent) {u d : BlockId} :
    leaderOf g u = leaderOf g d ↔ Relation.EqvGen (plan g).1.MustShare u d := by
  -- The class of a block under the joins is the same for joined blocks, so its leader has it too.
  have hclass := (leaderOf_spec g).2 (Quot.mk (plan g).1.MustShare) fun pair hp =>
    Quot.sound (mustShare_of_mem_joins h hp)
  exact DisjointSets.eq_iff_eqvGen (fun _ _ => leaderOf_eq_of_mustShare h) hclass

end StageGraph
end FlowPlan
