import FlowPlan.Proofs.Flattening
import FlowPlan.Proofs.LocalChanges
import Mathlib.Logic.Relation

/-!
Normalization as a sequence of local changes.

Every pass behind the flattening changes the graph at one connection, port or identity at a time.
The passes walk over lists that they took from an earlier graph, so each of them needs that what is
still on the list is still there.  With that done once, in `insertCheckpoints_rewrites` and its
three companions, whatever the local changes keep is kept by the passes.
-/

namespace FlowPlan

/-- What relates a state to the rest of the list relates the last state to the empty list. -/
theorem foldl_rest_induction {α β : Type} {f : β → α → β} {P : β → List α → Prop}
    (step : ∀ b a l, P b (a :: l) → P (f b a) l) :
    ∀ (l : List α) (b : β), P b l → P (l.foldl f b) [] := by
  intro l
  induction l with
  | nil => exact fun b h => h
  | cons a l ih => exact fun b h => ih (f b a) (step b a l h)

namespace FlowGraph

variable {g k : FlowGraph}

/-- One local change, at something that is there. -/
inductive LocalChange : FlowGraph → FlowGraph → Prop
  | insertOn {g : FlowGraph} {c : Connection} (hc : c ∈ g.connections) (boundary : Boundary) :
    LocalChange g (g.insertPseudoOn c boundary)
  | insertAfter {g : FlowGraph} {c : Connection} (hc : c ∈ g.connections) (boundary : Boundary) :
    LocalChange g (g.insertPseudoAfter c.source boundary)
  | split {g : FlowGraph} {e : Element} (he : e ∈ g.elements) (hi : e.isIdentity = true) :
    LocalChange g (g.splitIdentity e.id)
  | bypass {g : FlowGraph} {e : Element} (he : e ∈ g.elements) (hi : e.isIdentity = true) :
    LocalChange g (g.bypass e.id)

/-- A sequence of local changes. -/
abbrev Rewrites : FlowGraph → FlowGraph → Prop := Relation.ReflTransGen LocalChange

theorem LocalChange.coherent (h : g.Coherent) (hs : LocalChange g k) : k.Coherent := by
  cases hs with
  | insertOn hc boundary => exact insertPseudoOn_coherent h _ boundary
  | insertAfter hc boundary => exact insertPseudoAfter_coherent h _ boundary
  | split he _ => exact splitIdentity_coherent h he
  | bypass he _ => exact bypass_coherent h he

/-- A property that every local change of a coherent graph keeps is kept by a sequence of them. -/
theorem Rewrites.induction {P : FlowGraph → Prop}
    (step : ∀ g k, g.Coherent → LocalChange g k → P g → P k) (h : g.Coherent)
    (hs : Rewrites g k) (hP : P g) : k.Coherent ∧ P k := by
  induction hs with
  | refl => exact ⟨h, hP⟩
  | tail _ hstep ih => exact ⟨hstep.coherent ih.1, step _ _ ih.1 hstep ih.2⟩

theorem Rewrites.coherent (h : g.Coherent) (hs : Rewrites g k) : k.Coherent :=
  (hs.induction (P := fun _ => True) (fun _ _ _ _ _ => trivial) h trivial).1

/-! ## What a change leaves in place -/

/-- A change takes nothing but identities out. -/
theorem LocalChange.mem_of_mem (h : g.Coherent) (hs : LocalChange g k) {x : Element}
    (hx : x ∈ g.elements) (hi : x.isIdentity = false) : x ∈ k.elements := by
  cases hs with
  | insertOn =>
    rw [elements_insertPseudoOn]
    exact List.mem_append_left _ hx
  | insertAfter =>
    rw [elements_insertPseudoAfter]
    exact List.mem_append_left _ hx
  | split he hie =>
    refine (mem_elements_splitIdentity h he hi).2 ⟨hx, ?_⟩
    intro heq
    subst heq
    exact absurd hie (by simp [hi])
  | bypass he hie =>
    refine (mem_elements_bypass h he).2 ⟨hx, ?_⟩
    intro heq
    subst heq
    exact absurd hie (by simp [hi])

theorem isPseudo_of_isIdentity {x : Element} (h : x.isIdentity = true) : x.isPseudo = true := by
  simp only [Element.isIdentity, Bool.and_eq_true] at h
  exact h.1

/-- A change puts nothing but pseudo elements in. -/
theorem LocalChange.mem_or_isPseudo (h : g.Coherent) (hs : LocalChange g k) {x : Element}
    (hx : x ∈ k.elements) : x ∈ g.elements ∨ x.isPseudo = true := by
  cases hs with
  | insertOn =>
    rw [elements_insertPseudoOn, List.mem_append, List.mem_singleton] at hx
    exact hx.imp_right (by rintro rfl; rfl)
  | insertAfter =>
    rw [elements_insertPseudoAfter, List.mem_append, List.mem_singleton] at hx
    exact hx.imp_right (by rintro rfl; rfl)
  | split he _ =>
    by_cases hi : x.isIdentity = true
    · exact .inr (isPseudo_of_isIdentity hi)
    · exact .inl ((mem_elements_splitIdentity h he (by simpa using hi)).1 hx).1
  | bypass he _ => exact .inl ((mem_elements_bypass h he).1 hx).1

theorem LocalChange.wellFormed (h : g.WellFormed) (hs : LocalChange g k) : k.WellFormed := by
  refine h.of_coherent (hs.coherent h.coherent) fun x hx => ?_
  rcases hs.mem_or_isPseudo h.coherent hx with hx | hp
  · exact .inl hx
  · refine .inr fun inner hk => ?_
    rw [Element.isPseudo_iff.1 hp] at hk
    cases hk

theorem Rewrites.wellFormed (h : g.WellFormed) (hs : Rewrites g k) : k.WellFormed :=
  (hs.induction (fun _ _ _ hstep hwf => hstep.wellFormed hwf) h.coherent h).2

/-- What is no pseudo element is left alone. -/
theorem LocalChange.mem_iff (h : g.Coherent) (hs : LocalChange g k) {x : Element}
    (hp : x.isPseudo = false) : x ∈ k.elements ↔ x ∈ g.elements := by
  have hi : x.isIdentity = false := by simp [Element.isIdentity, hp]
  exact ⟨fun hx => (hs.mem_or_isPseudo h hx).resolve_right (by simp [hp]),
    fun hx => hs.mem_of_mem h hx hi⟩

theorem LocalChange.isFlat (h : g.Coherent) (hs : LocalChange g k) (hflat : g.isFlat = true) :
    k.isFlat = true := by
  refine isFlat_iff.2 fun x hx => ?_
  rcases hs.mem_or_isPseudo h hx with hx | hp
  · exact isFlat_iff.1 hflat x hx
  · rw [Element.isFlowPart, Element.isPseudo_iff.1 hp]
    rfl

/-! ## The passes -/

section Passes

/-- Inserting on some connections of a list, one after the other, whatever decides on which: each
connection is replaced in its turn at the earliest, and the others stay. -/
theorem foldl_insertOn_induction {f : FlowGraph × Nat → Connection → FlowGraph × Nat}
    (hf : ∀ s c, (f s c).1 = s.1 ∨ ∃ boundary, (f s c).1 = s.1.insertPseudoOn c boundary)
    {P : FlowGraph → List Connection → Prop}
    (step : ∀ s c rest, s.1.Coherent → c ∈ s.1.connections → P s.1 (c :: rest) →
      P (f s c).1 rest)
    {cs : List Connection} {s : FlowGraph × Nat} (h : s.1.Coherent) (hn : cs.Nodup)
    (hcs : ∀ c ∈ cs, c ∈ s.1.connections) (hP : P s.1 cs) :
    (cs.foldl f s).1.Coherent ∧ P (cs.foldl f s).1 [] := by
  have hend := foldl_rest_induction (f := f) (P := fun t rest => t.1.Coherent ∧ P t.1 rest ∧
    rest.Nodup ∧ ∀ c ∈ rest, c ∈ t.1.connections) ?_ cs s ⟨h, hP, hn, hcs⟩
  · exact ⟨hend.1, hend.2.1⟩
  · intro t c rest ht
    obtain ⟨ht, hP, hn, hrest⟩ := ht
    obtain ⟨hnc, hn⟩ := List.nodup_cons.1 hn
    have hc := hrest c List.mem_cons_self
    have hrest := fun c' hc' => hrest c' (List.mem_cons_of_mem c hc')
    have hnext := step t c rest ht hc hP
    rcases hf t c with heq | ⟨boundary, heq⟩ <;> rw [heq] at hnext ⊢
    · exact ⟨ht, hnext, hn, hrest⟩
    · refine ⟨insertPseudoOn_coherent ht c boundary, hnext, hn, fun c' hc' => ?_⟩
      refine (mem_insertPseudoOn ht hc boundary).2 (.inl ⟨hrest c' hc', ?_⟩)
      intro heq
      exact hnc (heq ▸ hc')

theorem foldl_insertOn_rewrites {f : FlowGraph × Nat → Connection → FlowGraph × Nat}
    (hf : ∀ s c, (f s c).1 = s.1 ∨ ∃ boundary, (f s c).1 = s.1.insertPseudoOn c boundary)
    {cs : List Connection} {s : FlowGraph × Nat} (h : s.1.Coherent) (hn : cs.Nodup)
    (hcs : ∀ c ∈ cs, c ∈ s.1.connections) : Rewrites s.1 (cs.foldl f s).1 := by
  refine (foldl_insertOn_induction hf (P := fun t _ => Rewrites s.1 t) ?_ h hn hcs .refl).2
  intro t c rest ht hc hrewrites
  rcases hf t c with heq | ⟨boundary, heq⟩ <;> rw [heq]
  · exact hrewrites
  · exact hrewrites.tail (.insertOn hc boundary)

theorem identityOn_fst (s : FlowGraph × Nat) (c : Connection) :
    (identityOn s c).1 = s.1 ∨ ∃ boundary, (identityOn s c).1 = s.1.insertPseudoOn c boundary := by
  unfold identityOn
  split
  · exact .inr ⟨_, rfl⟩
  · exact .inl rfl

theorem insertIdentities_rewrites (h : g.Coherent) : Rewrites g g.insertIdentities.1 :=
  foldl_insertOn_rewrites (s := (g, 0)) identityOn_fst h h.connectedOnce fun _ hc => hc

theorem incoming_nodup (h : g.Coherent) {e : Element} (he : e ∈ g.elements) :
    (g.incoming e.id).Nodup := by
  rw [incoming, h.inputsOf_eq he, List.nodup_flatMap]
  refine ⟨fun p _ => h.connectedOnce.filter _, ?_⟩
  have hn := h.portIds_nodup he
  rw [Element.portIds_eq] at hn
  refine (List.pairwise_map.1 (List.nodup_append.1 hn).1).imp fun {p q} hne c hc hc' => hne ?_
  simp only [List.mem_filter, beq_iff_eq] at hc hc'
  exact hc.2.symm.trans hc'.2

theorem checkpointHead_rewrites {s : FlowGraph × Nat} (h : s.1.Coherent) {e : Element}
    (he : e ∈ s.1.elements) : Rewrites s.1 (checkpointHead s e.id).1 := by
  refine foldl_insertOn_rewrites (fun s c => ?_) h (incoming_nodup h he)
    fun c hc => ((h.mem_incoming he).1 hc).1
  unfold checkpointOn
  split
  · exact .inl rfl
  · exact .inr ⟨_, rfl⟩

/-- A port that is not materialized feeds something. -/
theorem exists_target_of_not_isMaterialized (h : g.Coherent) {p : PortId}
    (hp : g.isOutputPort p = true) (hm : ¬ g.isMaterialized p = true) :
    ∃ d, ⟨p, d⟩ ∈ g.connections := by
  by_contra hnone
  refine hm (List.all_eq_true.2 fun i hi => ?_)
  obtain ⟨d, hd, -⟩ := List.mem_filterMap.1 hi
  exact absurd ⟨d, (h.mem_opposites hp).1 hd⟩ hnone

theorem checkpointBehind_rewrites {s : FlowGraph × Nat} (h : s.1.Coherent) {p : PortId}
    (hp : s.1.isOutputPort p = true) : Rewrites s.1 (checkpointBehind s p).1 := by
  unfold checkpointBehind
  split
  case isTrue => exact .refl
  case isFalse hm =>
    obtain ⟨d, hd⟩ := exists_target_of_not_isMaterialized h hp hm
    exact .single (.insertAfter hd _)

theorem checkpointShuffle_rewrites {s : FlowGraph × Nat} (h : s.1.Coherent) {e : Element}
    (he : e ∈ s.1.elements) (hi : e.isIdentity = false) :
    Rewrites s.1 (checkpointShuffle s e.id).1 := by
  unfold checkpointShuffle
  split
  · refine (foldl_rest_induction (P := fun t rest => Rewrites s.1 t.1 ∧ e ∈ t.1.elements ∧
      ∀ p ∈ rest, p ∈ e.outputIds) ?_ _ s ⟨.refl, he, ?_⟩).1
    · rintro t p rest ⟨ht, het, hrest⟩
      have hp := isOutputPort_iff.2 ⟨e, het, hrest p List.mem_cons_self⟩
      have hstep := checkpointBehind_rewrites (ht.coherent h) hp
      have hmem := hstep.induction (P := fun k => e ∈ k.elements)
        (fun _ _ hg hs hx => hs.mem_of_mem hg hx hi) (ht.coherent h) het
      exact ⟨ht.trans hstep, hmem.2, fun q hq => hrest q (List.mem_cons_of_mem p hq)⟩
    · intro p hp
      rwa [h.outputsOf_eq he] at hp
  · exact .refl

/-- A pass over elements that are no identities, in which each element is left in place. -/
theorem foldl_elements_rewrites {f : FlowGraph × Nat → ElementId → FlowGraph × Nat}
    (hf : ∀ s : FlowGraph × Nat, ∀ e ∈ s.1.elements, s.1.Coherent → e.isIdentity = false →
      Rewrites s.1 (f s e.id).1)
    {es : List ElementId} {s : FlowGraph × Nat} (h : s.1.Coherent)
    (hes : ∀ i ∈ es, ∃ e ∈ s.1.elements, e.isIdentity = false ∧ e.id = i) :
    Rewrites s.1 (es.foldl f s).1 := by
  refine (foldl_rest_induction (P := fun t rest => Rewrites s.1 t.1 ∧
    ∀ i ∈ rest, ∃ e ∈ t.1.elements, e.isIdentity = false ∧ e.id = i) ?_ es s ⟨.refl, hes⟩).1
  rintro t i rest ⟨ht, hrest⟩
  obtain ⟨e, he, hi, rfl⟩ := hrest i List.mem_cons_self
  have hstep := hf t e he (ht.coherent h) hi
  refine ⟨ht.trans hstep, fun i' hi' => ?_⟩
  obtain ⟨e', he', hie', rfl⟩ := hrest i' (List.mem_cons_of_mem _ hi')
  exact ⟨e', (hstep.induction (P := fun k => e' ∈ k.elements)
    (fun _ _ hg hs hx => hs.mem_of_mem hg hx hie') (ht.coherent h) he').2, hie', rfl⟩

theorem isIdentity_eq_false_of_boundary {e : Element} (h : e.boundary ≠ .none) :
    e.isIdentity = false := by
  simp [Element.isIdentity, h]

theorem insertCheckpoints_rewrites (h : g.Coherent) : Rewrites g g.insertCheckpoints.1 := by
  have hshuffles : Rewrites g
      ((g.idsWhere (·.isShuffleBoundary)).foldl checkpointShuffle (g, 0)).1 := by
    refine foldl_elements_rewrites (s := (g, 0))
      (fun s e he hs hi => checkpointShuffle_rewrites hs he hi) h fun i hi => ?_
    obtain ⟨e, he, hb, rfl⟩ := mem_idsWhere.1 hi
    simp only [Element.isShuffleBoundary, beq_iff_eq] at hb
    exact ⟨e, he, isIdentity_eq_false_of_boundary (by simp [hb]), rfl⟩
  refine hshuffles.trans (foldl_elements_rewrites
    (fun s e he hs _ => checkpointHead_rewrites hs he) (hshuffles.coherent h) fun i hi => ?_)
  obtain ⟨e, he, hb, rfl⟩ := mem_idsWhere.1 hi
  simp only [Element.isStageHead, Bool.and_eq_true, beq_iff_eq] at hb
  exact ⟨e, he, isIdentity_eq_false_of_boundary (by simp [hb.2]), rfl⟩

/-- A pass over identities that takes out no other identity than the one whose turn it is. -/
theorem foldl_identities_induction {f : FlowGraph × Nat → ElementId → FlowGraph × Nat}
    {P : FlowGraph → Prop}
    (step : ∀ s : FlowGraph × Nat, ∀ e ∈ s.1.elements, s.1.Coherent → e.isIdentity = true →
      P s.1 → (f s e.id).1.Coherent ∧ P (f s e.id).1 ∧
        ∀ x ∈ s.1.elements, x ≠ e → x ∈ (f s e.id).1.elements)
    (h : g.Coherent) (hP : P g) :
    (g.identities.foldl f (g, 0)).1.Coherent ∧ P (g.identities.foldl f (g, 0)).1 := by
  have hend := foldl_rest_induction (f := f) (P := fun t rest => (t.1.Coherent ∧ P t.1) ∧
    rest.Pairwise (· < ·) ∧ ∀ i ∈ rest, ∃ e ∈ t.1.elements, e.isIdentity = true ∧ e.id = i)
    ?_ g.identities (g, 0) ⟨⟨h, hP⟩, h.idsWhere_ascending _, fun i hi => ?_⟩
  · exact hend.1
  · intro t i rest ht
    obtain ⟨⟨ht, hP⟩, hsorted, hrest⟩ := ht
    obtain ⟨e, he, hi, rfl⟩ := hrest i List.mem_cons_self
    obtain ⟨hlt, hsorted⟩ := List.pairwise_cons.1 hsorted
    obtain ⟨hnext, hP, hkeep⟩ := step t e he ht hi hP
    refine ⟨⟨hnext, hP⟩, hsorted, fun i' hi' => ?_⟩
    obtain ⟨e', he', hie', rfl⟩ := hrest i' (List.mem_cons_of_mem _ hi')
    refine ⟨e', hkeep e' he' ?_, hie', rfl⟩
    intro heq
    rw [heq] at hi'
    exact absurd (hlt _ hi') (Nat.lt_irrefl _)
  · obtain ⟨e, he, hie, rfl⟩ := mem_idsWhere.1 hi
    exact ⟨e, he, hie, rfl⟩

theorem splitIdentities_rewrites (h : g.Coherent) : Rewrites g g.splitIdentities.1 := by
  refine (foldl_identities_induction (P := fun t => Rewrites g t) ?_ h .refl).2
  intro s e he hs hi hrewrites
  unfold splitIfShared
  split
  · exact ⟨hs, hrewrites, fun x hx _ => hx⟩
  · exact ⟨splitIdentity_coherent hs he, hrewrites.tail (.split he hi),
      fun x hx hne => mem_splitIdentity_of_mem hs he hx hne⟩

theorem reduceIdentities_rewrites (h : g.Coherent) : Rewrites g g.reduceIdentities.1 := by
  refine (foldl_identities_induction (P := fun t => Rewrites g t) ?_ h .refl).2
  intro s e he hs hi hrewrites
  unfold bypassUnlessMap
  split
  · exact ⟨hs, hrewrites, fun x hx _ => hx⟩
  · exact ⟨bypass_coherent hs he, hrewrites.tail (.bypass he hi),
      fun x hx hne => (mem_elements_bypass hs he).2 ⟨hx, hne⟩⟩

/-! ## All passes in turn -/

theorem normalize_eq (g : FlowGraph) :
    g.normalize.1 =
      g.flatten.1.insertCheckpoints.1.insertIdentities.1.splitIdentities.1.reduceIdentities.1 := by
  simp only [normalize]

/-- What is behind the flattening is a sequence of local changes. -/
theorem normalize_rewrites (h : g.flatten.1.Coherent) : Rewrites g.flatten.1 g.normalize.1 := by
  have hcheck := insertCheckpoints_rewrites h
  have hmap := insertIdentities_rewrites (hcheck.coherent h)
  have hsplit := splitIdentities_rewrites (hmap.coherent (hcheck.coherent h))
  have hreduce := reduceIdentities_rewrites
    (hsplit.coherent (hmap.coherent (hcheck.coherent h)))
  rw [normalize_eq]
  exact ((hcheck.trans hmap).trans hsplit).trans hreduce

theorem normalize_wellFormed (h : g.WellFormed) : g.normalize.1.WellFormed :=
  (normalize_rewrites (flatten_wellFormed h).coherent).wellFormed (flatten_wellFormed h)

end Passes

end FlowGraph
end FlowPlan
