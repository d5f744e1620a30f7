import FlowPlan.Proofs.Histories

/-!
What the elements of a graph look like.

`HasShape` counts the ports of an element; an element that was declared by one of the operations
looks exactly as the operation declares it, up to its name.  In particular a pseudo element has one
input `in` and one output `out` of one type, both mandatory and without a key, which is why a copy
of it that is declared from its type alone is a faithful one.  `history_declared` says so of all
elements, at all depths, at every moment of every history.
-/

namespace FlowPlan

namespace ElementDecl

/-- One of the operations declares this. -/
inductive IsMade : ElementDecl → Prop
  | input (name type : String) : IsMade (.input name type)
  | output (name type : String) : IsMade (.output name type)
  | operator (name : String) (desc : OperatorDesc) (inputs outputs : List PortDecl)
      (boundary : Boundary) : IsMade (.operator name desc inputs outputs boundary)
  | pseudo (name type : String) (boundary : Boundary) : IsMade (.pseudo name type boundary)
  | flowPart (name : String) (inner : FlowGraph) : IsMade (.flowPart name inner)

theorem isMade_within (part : String) (d : ElementDecl) : (d.within part).IsMade := by
  unfold within
  cases d.kind with
  | input => exact .pseudo _ _ _
  | output => exact .pseudo _ _ _
  | operator desc => exact .operator _ _ _ _ _
  | pseudo => exact .pseudo _ _ _
  | flowPart inner => exact .flowPart _ _

theorem IsMade.rename {d : ElementDecl} (h : d.IsMade) (name : String) :
    ({ d with name } : ElementDecl).IsMade := by
  cases h with
  | input => exact .input _ _
  | output => exact .output _ _
  | operator => exact .operator _ _ _ _ _
  | pseudo => exact .pseudo _ _ _
  | flowPart => exact .flowPart _ _

end ElementDecl

namespace FlowGraph

variable {g k : FlowGraph}

theorem IsRenaming.decl {x y : Element} (h : IsRenaming x y) :
    y.decl = { x.decl with name := y.name } := by
  simp only [Element.decl, h.kind, h.boundary, h.inputs, h.outputs]

/-- All elements at all depths look as one of the operations declares them. -/
inductive Declared : FlowGraph → Prop
  | intro {g : FlowGraph} (made : ∀ x ∈ g.elements, x.decl.IsMade)
      (inner : ∀ x ∈ g.elements, ∀ inner, x.kind = .flowPart inner → Declared inner) : Declared g

namespace Declared

theorem made (h : g.Declared) {x : Element} (hx : x ∈ g.elements) : x.decl.IsMade := by
  cases h with
  | intro made _ => exact made x hx

theorem inner {inner : FlowGraph} {x : Element} (h : g.Declared) (hx : x ∈ g.elements)
    (hk : x.kind = .flowPart inner) : inner.Declared := by
  cases h with
  | intro _ hinner => exact hinner x hx inner hk

theorem empty : FlowGraph.empty.Declared :=
  .intro (by simp [FlowGraph.empty]) (by simp [FlowGraph.empty])

theorem of_renamings (h : g.Declared) (hk : ∀ y ∈ k.elements, ∃ x ∈ g.elements, IsRenaming x y) :
    k.Declared := by
  constructor
  · intro y hy
    obtain ⟨x, hx, hr⟩ := hk y hy
    rw [hr.decl]
    exact (h.made hx).rename y.name
  · intro y hy inner hkind
    obtain ⟨x, hx, hr⟩ := hk y hy
    exact h.inner hx (hr.kind ▸ hkind)

theorem of_subset (h : g.Declared) (hk : ∀ y ∈ k.elements, y ∈ g.elements) : k.Declared :=
  h.of_renamings fun y hy => ⟨y, hk y hy, .refl y⟩

/-! ### Primitive changes -/

theorem add (h : g.Declared) {d : ElementDecl} (hd : d.IsMade)
    (hinner : ∀ inner, d.kind = .flowPart inner → inner.Declared) : (g.add d).Declared := by
  constructor
  · intro y hy
    rcases mem_add.1 hy with hy | rfl
    · exact h.made hy
    · rw [decl_numbered]
      exact hd
  · intro y hy inner hk
    rcases mem_add.1 hy with hy | rfl
    · exact h.inner hy hk
    · exact hinner inner hk

theorem addPseudo (h : g.Declared) (name type : String) (boundary : Boundary) :
    (g.add (.pseudo name type boundary)).Declared :=
  h.add (.pseudo name type boundary) fun _ hk => by cases hk

theorem connect (h : g.Declared) (u d : PortId) : (g.connect u d).Declared :=
  h.of_subset fun _ hy => elements_connect g u d ▸ hy

theorem connectAll (h : g.Declared) (pairs : List (PortId × PortId)) :
    (g.connectAll pairs).Declared :=
  h.of_subset fun _ hy => elements_connectAll g pairs ▸ hy

theorem disconnect (h : g.Declared) (u d : PortId) : (g.disconnect u d).Declared :=
  h.of_subset fun _ hy => hy

theorem removeElement (h : g.Declared) (i : ElementId) : (g.removeElement i).Declared := by
  unfold FlowGraph.removeElement
  split
  · exact h
  · exact h.of_subset fun _ hy => List.mem_of_mem_filter hy

theorem rename (h : g.Declared) (i : ElementId) (name : String) : (g.rename i name).Declared :=
  h.of_renamings fun _ hy => mem_rename hy

/-! ### Changes around one place -/

theorem insertPseudoOn (h : g.Declared) (c : Connection) (boundary : Boundary) :
    (g.insertPseudoOn c boundary).Declared :=
  (((h.addPseudo _ _ boundary).disconnect _ _).connect _ _).connect _ _

theorem insertPseudoAfter (h : g.Declared) (p : PortId) (boundary : Boundary) :
    (g.insertPseudoAfter p boundary).Declared := by
  have hfresh : (g.addFreshPseudo (g.portType p) boundary).Declared := h.addPseudo _ _ boundary
  refine hfresh.of_subset fun y hy => ?_
  rw [elements_insertPseudoAfter] at hy
  exact hy

theorem bypass (h : g.Declared) (i : ElementId) : (g.bypass i).Declared :=
  (h.removeElement i).connectAll _

theorem splitIdentity (h : g.Declared) (i : ElementId) : (g.splitIdentity i).Declared := by
  refine Declared.removeElement ?_ i
  refine List.foldlRecOn (motive := Declared) ((g.throughputs i).zipIdx 1) _ h fun k hk pair _ => ?_
  obtain ⟨⟨_, _⟩, _⟩ := pair
  exact ((hk.addPseudo _ _ .none).connect _ _).connect _ _

/-! ### Passes -/

theorem of_localChange (h : g.Declared) (hs : LocalChange g k) : k.Declared := by
  cases hs with
  | insertOn => exact h.insertPseudoOn _ _
  | insertAfter => exact h.insertPseudoAfter _ _
  | split => exact h.splitIdentity _
  | bypass => exact h.bypass _

theorem of_rewrites (hg : g.Coherent) (h : g.Declared) (hs : Rewrites g k) : k.Declared :=
  (hs.induction (fun _ _ _ hstep hd => hd.of_localChange hstep) hg h).2

theorem unfold {inner : FlowGraph} {e : Element} (h : g.Declared) (he : e ∈ g.elements)
    (hk : e.kind = .flowPart inner) : (g.unfold e inner).Declared := by
  have hinner := h.inner he hk
  have hcopies : (inner.elements.foldl (Unfolding.step e.name)
      { graph := g.removeElement e.id, copies := [], entries := [], exits := [] }).graph.Declared :=
    List.foldlRecOn (motive := fun s : Unfolding => s.graph.Declared) inner.elements _
      (h.removeElement e.id) fun s hs x hx =>
        hs.add (copyOf_eq e.name x ▸ ElementDecl.isMade_within e.name x.decl)
          fun _ hkind => hinner.inner hx (kind_of_kind_copyOf hkind)
  exact ((hcopies.connectAll _).connectAll _).connectAll _

theorem flatten {g : FlowGraph} (h : g.Declared) : g.flatten.1.Declared := by
  rw [FlowGraph.flatten]
  split
  case h_1 => exact h
  case h_2 e inner heq =>
    obtain ⟨he, hk⟩ := firstPart?_eq_some heq
    exact (h.unfold he hk).flatten
termination_by g.partCount
decreasing_by exact partCount_unfold_lt he hk

theorem rewriteBy (hg : g.WellFormed) (h : g.Declared) (r : Rewrite) :
    (g.rewriteBy r).Declared := by
  cases r with
  | flatten => exact h.flatten
  | insertCheckpoints => exact h.of_rewrites hg.coherent (insertCheckpoints_rewrites hg.coherent)
  | insertIdentities => exact h.of_rewrites hg.coherent (insertIdentities_rewrites hg.coherent)
  | splitIdentities => exact h.of_rewrites hg.coherent (splitIdentities_rewrites hg.coherent)
  | reduceIdentities => exact h.of_rewrites hg.coherent (reduceIdentities_rewrites hg.coherent)
  | normalize =>
    have hflat := (flatten_wellFormed hg).coherent
    exact h.flatten.of_rewrites hflat (normalize_rewrites hflat)

end Declared

mutual

theorem edit?_declared {g k : FlowGraph} (hg : g.WellFormed) (h : g.Declared) :
    ∀ e : Edit, g.edit? e = some k → k.Declared
  | .input name type, hk => Option.some.inj hk ▸ h.add (.input name type) fun _ hk => by cases hk
  | .output name type, hk => Option.some.inj hk ▸ h.add (.output name type) fun _ hk => by cases hk
  | .operator name desc inputs outputs boundary, hk =>
    Option.some.inj hk ▸ h.add (.operator name desc inputs outputs boundary)
      fun _ hk => by cases hk
  | .pseudo name type boundary, hk => Option.some.inj hk ▸ h.addPseudo name type boundary
  | .flowPart name edits, hk => by
    obtain ⟨inner, hinner, rfl⟩ := Option.map_eq_some_iff.1 hk
    refine h.add (.flowPart name inner) fun _ hkind => ?_
    cases hkind
    exact editAll?_declared empty_wellFormed .empty edits hinner
  | .connect source target, hk => Option.some.inj hk ▸ h.connect source target
  | .disconnect source target, hk => Option.some.inj hk ▸ h.disconnect source target
  | .remove e, hk => Option.some.inj hk ▸ h.removeElement e
  | .rename e name, hk => Option.some.inj hk ▸ h.rename e name
  | .insertOn c boundary, hk => insertPseudoOn?_eq_some hk ▸ h.insertPseudoOn c boundary
  | .insertAfter p boundary, hk => insertPseudoAfter?_eq_some hk ▸ h.insertPseudoAfter p boundary
  | .bypass e, hk => Option.some.inj hk ▸ h.bypass e
  | .rewrite r, hk => Option.some.inj hk ▸ h.rewriteBy hg r

theorem editAll?_declared {g k : FlowGraph} (hg : g.WellFormed) (h : g.Declared) :
    ∀ es : List Edit, g.editAll? es = some k → k.Declared
  | [], hk => Option.some.inj hk ▸ h
  | e :: es, hk => by
    obtain ⟨m, hm, hk⟩ := Option.bind_eq_some_iff.1 hk
    exact editAll?_declared (edit?_wellFormed hg e hm) (edit?_declared hg h e hm) es hk

end

/-- Histories make nothing else. -/
theorem history_declared {edits : List Edit} (hg : FlowGraph.empty.editAll? edits = some g) :
    g.Declared := editAll?_declared empty_wellFormed .empty edits hg

end FlowGraph
end FlowPlan
