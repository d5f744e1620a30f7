import FlowPlan.Proofs.Carrying

/-!
Normalization keeps the dataflow.

Pseudo elements only pass records on, so what a graph does is given by the paths through pseudo
elements that join its other elements.  The main statement is `normalization_keeps_dataflow`: each
pass behind the flattening, and all of them in turn, leave these paths and the other elements as
they are.  It comes from `LocalChange.keepsDataflow`, one local change at a time.
-/

namespace FlowPlan
namespace FlowGraph

variable {g k : FlowGraph}

/-- Records that one element sends from a port arrive at a port of another, with only pseudo
elements in between. -/
def Flow (g : FlowGraph) (u d : PortId) : Prop :=
  (∃ x ∈ g.elements, x.isPseudo = false ∧ u ∈ x.outputIds) ∧
    (∃ y ∈ g.elements, y.isPseudo = false ∧ d ∈ y.inputIds) ∧
      g.Carries (·.isPseudo = true) u d

/-- One graph does what the other does: it has the same elements apart from pseudo elements, joined
in the same way, and of the pseudo elements at least those with a boundary. -/
structure KeepsDataflow (g k : FlowGraph) : Prop where
  flow : ∀ u d, k.Flow u d ↔ g.Flow u d
  proper : ∀ x, x.isPseudo = false → (x ∈ k.elements ↔ x ∈ g.elements)
  bounded : ∀ x ∈ g.elements, x.isPseudo = true → x.boundary ≠ .none → x ∈ k.elements

namespace KeepsDataflow

theorem refl (g : FlowGraph) : KeepsDataflow g g :=
  ⟨fun _ _ => Iff.rfl, fun _ _ => Iff.rfl, fun _ hx _ _ => hx⟩

theorem trans {l : FlowGraph} (hgk : KeepsDataflow g k) (hkl : KeepsDataflow k l) :
    KeepsDataflow g l where
  flow := fun u d => (hkl.flow u d).trans (hgk.flow u d)
  proper := fun x hx => (hkl.proper x hx).trans (hgk.proper x hx)
  bounded := fun x hx hp hb => hkl.bounded x (hgk.bounded x hx hp hb) hp hb

/-- The paths are compared as hops between ports that are no port of a pseudo element. -/
theorem of_reach (h : g.Coherent) (hk : k.Coherent)
    (proper : ∀ x, x.isPseudo = false → (x ∈ k.elements ↔ x ∈ g.elements))
    (bounded : ∀ x ∈ g.elements, x.isPseudo = true → x.boundary ≠ .none → x ∈ k.elements)
    (hreach : ∀ x ∈ g.elements, ∀ y ∈ g.elements, x.isPseudo = false → y.isPseudo = false →
      ∀ u ∈ x.portIds, ∀ d ∈ y.portIds,
        (k.Reach (·.isPseudo = true) u d ↔ g.Reach (·.isPseudo = true) u d)) :
    KeepsDataflow g k := by
  refine ⟨fun u d => ?_, proper, bounded⟩
  have hsource : (∃ x ∈ k.elements, x.isPseudo = false ∧ u ∈ x.outputIds) ↔
      ∃ x ∈ g.elements, x.isPseudo = false ∧ u ∈ x.outputIds :=
    exists_congr fun x => and_congr_left fun hx => proper x hx.1
  have htarget : (∃ y ∈ k.elements, y.isPseudo = false ∧ d ∈ y.inputIds) ↔
      ∃ y ∈ g.elements, y.isPseudo = false ∧ d ∈ y.inputIds :=
    exists_congr fun y => and_congr_left fun hy => proper y hy.1
  rw [Flow, Flow, hsource, htarget]
  refine and_congr_right fun ⟨x, hx, hxp, hu⟩ => and_congr_right fun ⟨y, hy, hyp, hd⟩ => ?_
  rw [carries_iff_reach h (isOutputPort_iff.2 ⟨x, hx, hu⟩) (isInputPort_iff.2 ⟨y, hy, hd⟩),
    carries_iff_reach hk (isOutputPort_iff.2 ⟨x, (proper x hxp).2 hx, hu⟩)
      (isInputPort_iff.2 ⟨y, (proper y hyp).2 hy, hd⟩)]
  exact hreach x hx y hy hxp hyp u (Element.mem_portIds.2 (.inr hu)) d
    (Element.mem_portIds.2 (.inl hd))

end KeepsDataflow

/-- The ports of an identity are not those of an element that is no pseudo element. -/
theorem Coherent.port_ne_of_isPseudo (h : g.Coherent) {e x : Element} {a b p : PortId}
    (he : e ∈ g.elements) (hi : e.isIdentity = true) (hin : e.inputIds = [a])
    (hout : e.outputIds = [b]) (hx : x ∈ g.elements) (hxp : x.isPseudo = false)
    (hp : p ∈ x.portIds) : p ≠ a ∧ p ≠ b := by
  refine h.port_ne he hin hout hx ?_ hp
  intro heq
  subst heq
  simp [isPseudo_of_isIdentity hi] at hxp

theorem LocalChange.keepsDataflow (h : g.Coherent) (hs : LocalChange g k) :
    KeepsDataflow g k := by
  refine .of_reach h (hs.coherent h) (fun x hx => hs.mem_iff h hx)
    (fun x hx _ hb => hs.mem_of_mem h hx (isIdentity_eq_false_of_boundary hb)) ?_
  intro x hx y hy hxp hyp u hu d hd
  have hu_lt := h.port_lt hx hu
  have hd_lt := h.port_lt hy hd
  cases hs with
  | insertOn hc boundary => exact reach_insertPseudoOn h hc (by rfl) hu_lt hd_lt
  | insertAfter hc boundary =>
    exact reach_insertPseudoAfter h (h.joined _ hc).1 (by rfl) hu_lt hd_lt
  | split he hi =>
    have hp := isPseudo_of_isIdentity hi
    obtain ⟨a, b, hin, hout⟩ := Element.ports_of_isPseudo (h.shaped _ he) hp
    exact reach_splitIdentity h he hi (fun _ => isPseudo_of_isIdentity) hin hout
      (h.port_ne_of_isPseudo he hi hin hout hx hxp hu)
      (h.port_ne_of_isPseudo he hi hin hout hy hyp hd) hu_lt hd_lt
  | bypass he hi =>
    have hp := isPseudo_of_isIdentity hi
    obtain ⟨a, b, hin, hout⟩ := Element.ports_of_isPseudo (h.shaped _ he) hp
    exact reach_bypass h hp he hin hout
      (h.port_ne_of_isPseudo he hi hin hout hx hxp hu)
      (h.port_ne_of_isPseudo he hi hin hout hy hyp hd)

theorem Rewrites.keepsDataflow (h : g.Coherent) (hs : Rewrites g k) : KeepsDataflow g k :=
  (hs.induction (fun _ _ hl hstep hgl => hgl.trans (hstep.keepsDataflow hl)) h (.refl g)).2

/-- Each pass on its own, and all of them in turn, keep the dataflow of a graph without parts. -/
theorem normalization_keeps_dataflow (h : g.WellFormed) (hflat : g.isFlat = true) :
    KeepsDataflow g g.insertCheckpoints.1 ∧ KeepsDataflow g g.insertIdentities.1 ∧
      KeepsDataflow g g.splitIdentities.1 ∧ KeepsDataflow g g.reduceIdentities.1 ∧
        KeepsDataflow g g.normalize.1 := by
  have hg := h.coherent
  have hall : Rewrites g g.normalize.1 := by
    have hrewrites := normalize_rewrites (g := g) (by rw [flatten_of_isFlat hflat]; exact hg)
    rwa [flatten_of_isFlat hflat] at hrewrites
  exact ⟨(insertCheckpoints_rewrites hg).keepsDataflow hg,
    (insertIdentities_rewrites hg).keepsDataflow hg, (splitIdentities_rewrites hg).keepsDataflow hg,
    (reduceIdentities_rewrites hg).keepsDataflow hg, hall.keepsDataflow hg⟩

/-- A shuffle whose output goes straight into another one. -/
def doubleShuffle : FlowGraph :=
  let desc : OperatorDesc := { name := "r", kind := "fold", resources := [] }
  let key : PortDecl := { PortDecl.plain "in" "Record" with key := some ⟨["key"], []⟩ }
  assemble
    [.input "in" "Record", .pseudo "id" "Record" .none,
      .operator "r1" desc [key] [.plain "out" "Record"] .shuffle,
      .operator "r2" desc [key] [.plain "out" "Record"] .shuffle,
      .output "out" "Record"]
    [(0, 1), (2, 3), (4, 5), (6, 7)]

theorem doubleShuffle_keepsDataflow :
    doubleShuffle.WellFormed ∧ doubleShuffle.isFlat = true ∧
      KeepsDataflow doubleShuffle doubleShuffle.normalize.1 := by
  have hwf : doubleShuffle.WellFormed := assemble_wellFormed _ (by simp)
  have hflat : doubleShuffle.isFlat = true := by decide
  exact ⟨hwf, hflat, (normalization_keeps_dataflow hwf hflat).2.2.2.2⟩

end FlowGraph
end FlowPlan
