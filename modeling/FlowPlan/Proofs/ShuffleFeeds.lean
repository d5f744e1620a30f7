import FlowPlan.Legality
import FlowPlan.Proofs.MapSides

/-!
Which shuffles read a map side in the normal form.

Inserting identities gives every shuffle a map side, and splitting keeps it.  Taking identities out
may take the map side away again: a way from materialized data to a shuffle may run through
identities each of which goes for the sake of its other neighbours.  The main statement is
`normalization_feeds_shuffles_iff`, which says for every well-formed graph when that happens, and
`shortcut` is a legal graph on which it does.
-/

namespace FlowPlan
namespace FlowGraph

variable {g k : FlowGraph}

/-! ## Inserting -/

theorem lacksMap_eq (h : g.Coherent) {x y : Element} {c : Connection} (hx : x ∈ g.elements)
    (hy : y ∈ g.elements) (hs : c.source ∈ x.outputIds) (ht : c.target ∈ y.inputIds) :
    g.lacksMap c = (x.isStageBoundary && (y.isShuffleBoundary || y.isStageHead)) := by
  rw [lacksMap, h.owner?_eq_some hx (Element.mem_portIds.2 (.inr hs)),
    h.owner?_eq_some hy (Element.mem_portIds.2 (.inl ht)), Option.any_some, Option.any_some]

/-- The identity on a connection lacks no map side, neither in front of it nor behind it. -/
theorem lacksMap_insertPseudoOn (h : g.Coherent) {c c' : Connection} (hc : c ∈ g.connections)
    (hc' : c' ∈ (g.insertPseudoOn c .none).connections)
    (hlacks : (g.insertPseudoOn c .none).lacksMap c' = true) :
    c' ∈ g.connections ∧ c' ≠ c ∧ g.lacksMap c' = true := by
  have hk := insertPseudoOn_coherent h c .none
  have helems := elements_insertPseudoOn g c .none
  have hold : ∀ x ∈ g.elements, x ∈ (g.insertPseudoOn c .none).elements := fun x hx => by
    rw [helems]
    exact List.mem_append_left _ hx
  have hnew : g.freshPseudo (g.portType c.source) .none
      ∈ (g.insertPseudoOn c .none).elements := by
    rw [helems]
    exact List.mem_append_right _ (List.mem_singleton_self _)
  rcases (mem_insertPseudoOn h hc .none).1 hc' with ⟨hmem, hne⟩ | rfl | rfl
  · obtain ⟨x, hx, hs⟩ := h.source_mem hmem
    obtain ⟨y, hy, ht⟩ := h.target_mem hmem
    rw [lacksMap_eq hk (hold x hx) (hold y hy) hs ht, ← lacksMap_eq h hx hy hs ht] at hlacks
    exact ⟨hmem, hne, hlacks⟩
  · obtain ⟨x, hx, hs⟩ := h.source_mem hc
    rw [lacksMap_eq (c := ⟨c.source, g.entry⟩) hk (hold x hx) hnew hs
      (List.mem_singleton_self g.entry)] at hlacks
    simp [freshPseudo, numbered, allot, ElementDecl.pseudo, Element.isShuffleBoundary,
      Element.isStageHead] at hlacks
  · obtain ⟨y, hy, ht⟩ := h.target_mem hc
    rw [lacksMap_eq (c := ⟨g.exit, c.target⟩) hk hnew (hold y hy)
      (List.mem_singleton_self g.exit) ht,
      isStageBoundary_eq_false_of_isIdentity (by rfl)] at hlacks
    cases hlacks

theorem insertIdentities_shufflesReadMaps (h : g.Coherent) :
    g.insertIdentities.1.shufflesReadMaps = true := by
  have hend := foldl_insertOn_induction (f := identityOn) (s := (g, 0)) identityOn_fst
    (P := fun t rest => ∀ c ∈ t.connections, t.lacksMap c = true → c ∈ rest)
    ?_ h h.connectedOnce (fun _ hc => hc) (fun _ hc _ => hc)
  · obtain ⟨hk, hlacks⟩ := hend
    refine (shufflesReadMaps_iff hk).2 fun x hx y hy hxs hys hf => ?_
    obtain ⟨c, hc, hs, ht⟩ := hf
    refine List.not_mem_nil (hlacks c hc ?_)
    rw [lacksMap_eq hk hx hy hs ht, hxs, hys]
    rfl
  · intro s c rest hs hc hlacks c' hc'
    unfold identityOn at hc' ⊢
    by_cases hmap : s.1.lacksMap c = true
    · rw [if_pos hmap] at hc' ⊢
      intro hc'map
      obtain ⟨hmem, hne, hc'map⟩ := lacksMap_insertPseudoOn hs hc hc' hc'map
      exact (List.mem_cons.1 (hlacks c' hmem hc'map)).resolve_left hne
    · rw [if_neg hmap] at hc' ⊢
      intro hc'map
      refine (List.mem_cons.1 (hlacks c' hc' hc'map)).resolve_left fun heq => ?_
      exact hmap (heq ▸ hc'map)

/-! ## Splitting -/

theorem mem_connections_addShares (name type : String)
    (pairs : List ((Connection × Connection) × Nat)) {c : Connection}
    (hc : c ∈ (g.addShares name type pairs).connections) :
    c ∈ g.connections ∨ g.entry ≤ c.source ∨ g.entry ≤ c.target := by
  induction pairs generalizing g with
  | nil => exact .inl hc
  | cons pair pairs ih =>
    obtain ⟨⟨i, o⟩, n⟩ := pair
    have hle := entry_le_addShare g name type ((i, o), n)
    rcases ih hc with hc | hs | ht
    · rw [addShare, mem_connect, mem_connect] at hc
      rcases hc with (hc | ⟨rfl, -⟩) | ⟨rfl, -⟩
      · exact .inl hc
      · exact .inr (.inr (Nat.le_refl _))
      · exact .inr (.inl (Nat.le_succ _))
    · exact .inr (.inl (Nat.le_trans hle hs))
    · exact .inr (.inr (Nat.le_trans hle ht))

/-- Between elements that were there, splitting makes no connection. -/
theorem feeds_of_splitIdentity (h : g.Coherent) {e x y : Element} (he : e ∈ g.elements)
    (hx : x ∈ g.elements) (hy : y ∈ g.elements) (hf : (g.splitIdentity e.id).Feeds x y) :
    g.Feeds x y := by
  obtain ⟨c, hc, hs, ht⟩ := hf
  rw [splitIdentity_eq, mem_connections_removeElement (addShares_coherent h _ _ _)
    (mem_addShares_of_mem _ _ _ he)] at hc
  refine ⟨c, (mem_connections_addShares _ _ _ hc.1).resolve_right fun hnew => ?_, hs, ht⟩
  have hslt := h.port_lt hx (Element.mem_portIds.2 (.inr hs))
  have htlt := h.port_lt hy (Element.mem_portIds.2 (.inl ht))
  rcases hnew with hle | hle
  · exact Nat.not_le_of_gt hslt hle
  · exact Nat.not_le_of_gt htlt hle

theorem splitIdentities_shufflesReadMaps (h : g.Coherent) (hmaps : g.shufflesReadMaps = true) :
    g.splitIdentities.1.shufflesReadMaps = true := by
  refine (foldl_identities_induction (P := fun t => t.shufflesReadMaps = true) ?_ h hmaps).2
  intro s e he hs hi hmaps
  unfold splitIfShared
  split
  · exact ⟨hs, hmaps, fun x hx _ => hx⟩
  · have hk := splitIdentity_coherent hs he
    refine ⟨hk, ?_, fun x hx hne => mem_splitIdentity_of_mem hs he hx hne⟩
    refine (shufflesReadMaps_iff hk).2 fun x hx y hy hxs hys hf => ?_
    have hxi := isIdentity_eq_false_of_isStageBoundary hxs
    have hyi := isIdentity_eq_false_of_isShuffleBoundary hys
    have hxg := ((mem_elements_splitIdentity hs he hxi).1 hx).1
    have hyg := ((mem_elements_splitIdentity hs he hyi).1 hy).1
    exact (shufflesReadMaps_iff hs).1 hmaps x hxg y hyg hxs hys
      (feeds_of_splitIdentity hs he hxg hyg hf)

/-! ## The normal form -/

/-- The graph in front of the last pass, from which identities are taken out. -/
def unreduced (g : FlowGraph) : FlowGraph :=
  g.flatten.1.insertCheckpoints.1.insertIdentities.1.splitIdentities.1

theorem unreduced_spec (h : g.WellFormed) :
    g.unreduced.Coherent ∧ g.unreduced.shufflesReadMaps = true := by
  have hflat := (flatten_wellFormed h).coherent
  have hcheck := (insertCheckpoints_rewrites hflat).coherent hflat
  have hmap := (insertIdentities_rewrites hcheck).coherent hcheck
  exact ⟨(splitIdentities_rewrites hmap).coherent hmap,
    splitIdentities_shufflesReadMaps hmap (insertIdentities_shufflesReadMaps hcheck)⟩

/-- Materialized data reaches a shuffle through identities none of which is a map side. -/
def HasUnmappedWay (g : FlowGraph) : Prop :=
  ∃ x ∈ g.elements, ∃ y ∈ g.elements, x.isStageBoundary = true ∧ y.isShuffleBoundary = true ∧
    ∃ u ∈ x.outputIds, ∃ d ∈ y.inputIds,
      g.Carries (fun e => e.isIdentity = true ∧ ¬ g.IsMapSide e) u d

/-- Every shuffle reads map sides before the last pass, and after it exactly if no way to a shuffle
runs past all map sides. -/
theorem normalization_feeds_shuffles_iff (h : g.WellFormed) :
    g.unreduced.shufflesReadMaps = true ∧
      (g.normalize.1.shufflesReadMaps = true ↔ ¬ g.unreduced.HasUnmappedWay) := by
  obtain ⟨hk, hmapped⟩ := unreduced_spec h
  refine ⟨hmapped, ?_⟩
  have hreduced : Collapsed g.unreduced
      (fun e => e.isIdentity = true ∧ ¬ g.unreduced.IsMapSide e) g.normalize.1 := by
    rw [normalize_eq]
    exact reduceIdentities_collapsed hk
  have hkept : ∀ {x : Element}, x.isIdentity = false → x ∈ g.unreduced.elements →
      x ∈ g.normalize.1.elements := fun hxi hx =>
    (hreduced.elements _).2 ⟨hx, fun hout => by simp [hout.1] at hxi⟩
  rw [shufflesReadMaps_iff hreduced.coherent]
  constructor
  · intro hmaps hway
    obtain ⟨x, hx, y, hy, hxs, hys, hp⟩ := hway
    have hx' := hkept (isIdentity_eq_false_of_isStageBoundary hxs) hx
    have hy' := hkept (isIdentity_eq_false_of_isShuffleBoundary hys) hy
    exact hmaps x hx' y hy' hxs hys ((hreduced.feeds_iff hx' hy').2 hp)
  · intro hno x hx y hy hxs hys hf
    exact hno ⟨x, ((hreduced.elements x).1 hx).1, y, ((hreduced.elements y).1 hy).1, hxs, hys,
      (hreduced.feeds_iff hx hy).1 hf⟩

/-- An identity that is the map side of a shuffle for some records and takes up the output of an
operator besides. -/
def shortcut : FlowGraph :=
  assemble
    [.input "in" "Record",
      .operator "m" { name := "m", kind := "update", resources := [] } [.plain "in" "Record"]
        [.plain "out" "Record"] .none,
      .pseudo "id" "Record" .none,
      .operator "r" { name := "r", kind := "fold", resources := [] }
        [{ PortDecl.plain "in" "Record" with key := some ⟨["key"], []⟩ }]
        [.plain "out" "Record"] .shuffle,
      .output "out" "Record"]
    [(0, 1), (0, 3), (2, 3), (4, 5), (6, 7)]

theorem shortcut_wellFormed : shortcut.WellFormed :=
  assemble_wellFormed _ (by simp)

set_option maxRecDepth 10000 in
theorem shortcut_unfed :
    shortcut.isLegal = true ∧ shortcut.normalize.1.shufflesReadMaps = false := by
  decide +kernel

set_option maxRecDepth 10000 in
theorem shortcut_hasUnmappedWay :
    shortcut.WellFormed ∧ shortcut.unreduced.shufflesReadMaps = true ∧
      shortcut.unreduced.HasUnmappedWay := by
  have hboth := normalization_feeds_shuffles_iff shortcut_wellFormed
  refine ⟨shortcut_wellFormed, hboth.1, ?_⟩
  by_contra hno
  have hmaps := hboth.2.2 hno
  revert hmaps
  decide +kernel

end FlowGraph
end FlowPlan
