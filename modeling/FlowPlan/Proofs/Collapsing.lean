import FlowPlan.Proofs.Carrying

/-!
Graphs with some elements taken out.

A graph from which pseudo elements are taken out one by one has the connections that were paths
through them.  `Collapsed` says so without reference to the order in which they went.
-/

namespace FlowPlan
namespace FlowGraph

variable {g t : FlowGraph} {via out : Element → Prop}

/-! ## Paths and the elements on them -/

theorem Carries.congr (hvia : ∀ e ∈ g.elements, via e → out e) {u d : PortId}
    (h : g.Carries via u d) : g.Carries out u d := by
  induction h with
  | direct h => exact .direct h
  | through first he hv ha hb _ ih => exact .through first he (hvia _ he hv) ha hb ih

theorem Carries.trans {e : Element} {u a b d : PortId} (he : e ∈ g.elements) (hv : via e)
    (ha : a ∈ e.inputIds) (hb : b ∈ e.outputIds) (hfirst : g.Carries via u a)
    (hrest : g.Carries via b d) : g.Carries via u d := by
  induction hfirst with
  | direct h => exact .through h he hv ha hb hrest
  | through first he' hv' ha' hb' _ ih => exact .through first he' hv' ha' hb' (ih ha)

/-- One more element on the paths is passed at most once on the shortest of them. -/
theorem carries_or_eq {e : Element} {a b u d : PortId} (he : e ∈ g.elements)
    (hin : e.inputIds = [a]) (hout : e.outputIds = [b]) :
    g.Carries (fun x => via x ∨ x = e) u d ↔
      g.Carries via u d ∨ (g.Carries via u a ∧ g.Carries via b d) := by
  constructor
  · intro h
    induction h with
    | direct h => exact .inl (.direct h)
    | through first hx hv hs ht _ ih =>
      rcases hv with hv | rfl
      · rcases ih with ih | ⟨iha, ihb⟩
        · exact .inl (.through first hx hv hs ht ih)
        · exact .inr ⟨.through first hx hv hs ht iha, ihb⟩
      · rw [hin, List.mem_singleton] at hs
        rw [hout, List.mem_singleton] at ht
        subst hs ht
        exact .inr ⟨.direct first, ih.elim id And.right⟩
  · intro hmem
    rcases hmem with h | ⟨ha, hb⟩
    · exact h.mono fun x => .inl
    · exact .trans he (.inr rfl) (by rw [hin]; exact List.mem_singleton_self a)
        (by rw [hout]; exact List.mem_singleton_self b) (ha.mono fun x => .inl)
        (hb.mono fun x => .inl)

/-- A path is cut behind the last of its elements that is not taken out. -/
theorem Carries.last_kept {u d : PortId} (h : g.Carries via u d) (out : Element → Prop) :
    g.Carries out u d ∨
      ∃ z ∈ g.elements, via z ∧ ¬ out z ∧ ∃ w ∈ z.outputIds, g.Carries out w d := by
  induction h with
  | direct h => exact .inl (.direct h)
  | @through u a b d e first he hv ha hb _ ih =>
    rcases ih with ih | ih
    · by_cases hout : out e
      · exact .inl (.through first he hout ha hb ih)
      · exact .inr ⟨e, he, hv, hout, b, hb, ih⟩
    · exact .inr ih

/-- A path is cut in front of the first of its elements that is not taken out. -/
theorem Carries.first_kept {u d : PortId} (h : g.Carries via u d) (out : Element → Prop) :
    g.Carries out u d ∨
      ∃ z ∈ g.elements, via z ∧ ¬ out z ∧ ∃ w ∈ z.inputIds, g.Carries out u w := by
  induction h with
  | direct h => exact .inl (.direct h)
  | @through u a b d e first he hv ha hb _ ih =>
    by_cases hout : out e
    · rcases ih with ih | ⟨z, hz, hvz, hkept, w, hw, ih⟩
      · exact .inl (.through first he hout ha hb ih)
      · exact .inr ⟨z, hz, hvz, hkept, w, hw, .through first he hout ha hb ih⟩
    · exact .inr ⟨e, he, hv, hout, a, ha, .direct first⟩

/-! ## Taking out -/

/-- What is left of a graph when some elements are taken out. -/
structure Collapsed (g : FlowGraph) (out : Element → Prop) (t : FlowGraph) : Prop where
  coherent : t.Coherent
  elements : ∀ x, x ∈ t.elements ↔ x ∈ g.elements ∧ ¬ out x
  connections : ∀ u d, ⟨u, d⟩ ∈ t.connections ↔
    t.isOutputPort u = true ∧ t.isInputPort d = true ∧ g.Carries out u d

namespace Collapsed

theorem refl (h : g.Coherent) (hout : ∀ x ∈ g.elements, ¬ out x) : Collapsed g out g where
  coherent := h
  elements := fun x => ⟨fun hx => ⟨hx, hout x hx⟩, And.left⟩
  connections := fun u d => by
    constructor
    · exact fun hc => ⟨(h.joined _ hc).1, (h.joined _ hc).2, .direct hc⟩
    · intro hmem
      obtain ⟨-, -, hc | ⟨-, he, hv, -, -, -⟩⟩ := hmem
      · exact hc
      · exact absurd hv (hout _ he)

theorem congr (h : Collapsed g out t) (heq : ∀ x ∈ g.elements, out x ↔ via x) :
    Collapsed g via t where
  coherent := h.coherent
  elements := fun x => (h.elements x).trans (and_congr_right fun hx => not_congr (heq x hx))
  connections := fun u d => (h.connections u d).trans <|
    and_congr_right fun _ => and_congr_right fun _ =>
      ⟨Carries.congr fun x hx => (heq x hx).1, Carries.congr fun x hx => (heq x hx).2⟩

theorem bypass (h : Collapsed g out t) {e : Element} {a b : PortId} (he : e ∈ t.elements)
    (hin : e.inputIds = [a]) (hout : e.outputIds = [b]) :
    Collapsed g (fun x => out x ∨ x = e) (t.bypass e.id) where
  coherent := bypass_coherent h.coherent he
  elements := fun x => by
    rw [mem_elements_bypass h.coherent he, h.elements, not_or, and_assoc]
  connections := fun u d => by
    have helems : (t.bypass e.id).elements = (t.removeElement e.id).elements :=
      elements_connectAll _ _
    have ha : t.isInputPort a = true :=
      isInputPort_iff.2 ⟨e, he, by rw [hin]; exact List.mem_singleton_self a⟩
    have hb : t.isOutputPort b = true :=
      isOutputPort_iff.2 ⟨e, he, by rw [hout]; exact List.mem_singleton_self b⟩
    rw [mem_bypass h.coherent he, isOutputPort_congr helems, isInputPort_congr helems,
      isOutputPort_removeElement h.coherent he, isInputPort_removeElement h.coherent he,
      carries_or_eq ((h.elements e).1 he).1 hin hout, hin, hout]
    simp only [List.mem_singleton, exists_eq_left, h.connections, ha, hb, true_and]
    tauto

/-- The neighbours in what is left are joined by a path through what was taken out. -/
theorem feeds_iff (h : Collapsed g out t) {x y : Element} (hx : x ∈ t.elements)
    (hy : y ∈ t.elements) :
    t.Feeds x y ↔ ∃ u ∈ x.outputIds, ∃ d ∈ y.inputIds, g.Carries out u d := by
  constructor
  · intro hmem
    obtain ⟨c, hc, hu, hd⟩ := hmem
    exact ⟨c.source, hu, c.target, hd, ((h.connections _ _).1 hc).2.2⟩
  · intro hmem
    obtain ⟨u, hu, d, hd, hp⟩ := hmem
    exact ⟨⟨u, d⟩, (h.connections u d).2
      ⟨isOutputPort_iff.2 ⟨x, hx, hu⟩, isInputPort_iff.2 ⟨y, hy, hd⟩, hp⟩, hu, hd⟩

end Collapsed
end FlowGraph
end FlowPlan
