import FlowPlan.Proofs.Rewriting

/-!
Where the records that leave a port arrive.

`Carries via u d` says that records go from the output port `u` to the input port `d` along
connections and through elements of the kind `via`.  For proofs the same is cut into hops, each
along one connection or through one element: a change of the graph is then compared hop by hop, and
`Reach` is the closure of the hops.
-/

namespace FlowPlan
namespace FlowGraph

open Relation

variable {g k : FlowGraph} {via : Element → Prop}

/-- A path of connections from one port to another, whose elements in between are all of a kind. -/
inductive Carries (g : FlowGraph) (via : Element → Prop) : PortId → PortId → Prop
  | direct {u d : PortId} (h : ⟨u, d⟩ ∈ g.connections) : Carries g via u d
  | through {u a b d : PortId} {e : Element} (first : ⟨u, a⟩ ∈ g.connections)
    (he : e ∈ g.elements) (hv : via e) (ha : a ∈ e.inputIds) (hb : b ∈ e.outputIds)
    (rest : Carries g via b d) : Carries g via u d

/-- One hop on such a path. -/
inductive Hop (g : FlowGraph) (via : Element → Prop) : PortId → PortId → Prop
  | along {u d : PortId} (h : ⟨u, d⟩ ∈ g.connections) : Hop g via u d
  | inside {a b : PortId} {e : Element} (he : e ∈ g.elements) (hv : via e) (ha : a ∈ e.inputIds)
    (hb : b ∈ e.outputIds) : Hop g via a b

abbrev Reach (g : FlowGraph) (via : Element → Prop) : PortId → PortId → Prop :=
  ReflTransGen (Hop g via)

theorem reach_through {u d a b : PortId} {e : Element} (first : ⟨u, a⟩ ∈ g.connections)
    (he : e ∈ g.elements) (hv : via e) (ha : a ∈ e.inputIds) (hb : b ∈ e.outputIds)
    (last : ⟨b, d⟩ ∈ g.connections) : g.Reach via u d :=
  .head (.along first) (.head (.inside he hv ha hb) (.single (.along last)))

theorem Carries.reach {u d : PortId} (h : g.Carries via u d) : g.Reach via u d := by
  induction h with
  | direct h => exact .single (.along h)
  | through first he hv ha hb _ ih => exact .head (.along first) (.head (.inside he hv ha hb) ih)

theorem Carries.mono {via' : Element → Prop} (hvia : ∀ e, via e → via' e) {u d : PortId}
    (h : g.Carries via u d) : g.Carries via' u d := by
  induction h with
  | direct h => exact .direct h
  | through first he hv ha hb _ ih => exact .through first he (hvia _ hv) ha hb ih

/-- From an output port to an input port, hops make up a path. -/
theorem carries_iff_reach (h : g.Coherent) {u d : PortId} (hu : g.isOutputPort u = true)
    (hd : g.isInputPort d = true) : g.Carries via u d ↔ g.Reach via u d := by
  refine ⟨Carries.reach, fun hr => ?_⟩
  have no_both : ∀ p, g.isInputPort p = true → g.isOutputPort p = true → False := by
    intro p hin hout
    obtain ⟨e, he, hpe⟩ := isInputPort_iff.1 hin
    obtain ⟨e', he', hpe'⟩ := isOutputPort_iff.1 hout
    exact h.not_mem_outputIds he he' hpe hpe'
  -- A path goes on from an output port at once, and from an input port through its element.
  have key : ∀ {p}, g.Reach via p d → (g.isOutputPort p = true → g.Carries via p d) ∧
      (g.isInputPort p = true → p = d ∨ ∃ e ∈ g.elements, via e ∧ p ∈ e.inputIds ∧
        ∃ b ∈ e.outputIds, g.Carries via b d) := by
    intro p hp
    induction hp using ReflTransGen.head_induction_on with
    | refl => exact ⟨fun hout => (no_both d hd hout).elim, fun _ => .inl rfl⟩
    | head hhop _ ih =>
      cases hhop with
      | along hc =>
        refine ⟨fun _ => ?_, fun hin => (no_both _ hin (h.joined _ hc).1).elim⟩
        rcases ih.2 (h.joined _ hc).2 with rfl | ⟨e, he, hv, ha, b, hb, hrest⟩
        · exact .direct hc
        · exact .through hc he hv ha hb hrest
      | inside he hv ha hb =>
        refine ⟨fun hout => (no_both _ (isInputPort_iff.2 ⟨_, he, ha⟩) hout).elim, fun _ => ?_⟩
        exact .inr ⟨_, he, hv, ha, _, hb, ih.1 (isOutputPort_iff.2 ⟨_, he, hb⟩)⟩
  exact (key hr).1 hu

/-! ## A pseudo element put in -/

section PutIn

variable {x : Element} {u : PortId}

/-- Old ports stand for themselves, and the ports of a new element for the port that feeds it. -/
def standIn (g : FlowGraph) (u p : PortId) : PortId := if p < g.entry then p else u

theorem standIn_of_lt {p : PortId} (hp : p < g.entry) : g.standIn u p = p := if_pos hp

theorem standIn_entry : g.standIn u g.entry = u := if_neg (Nat.lt_irrefl _)

theorem standIn_exit : g.standIn u g.exit = u := if_neg (Nat.not_lt.2 (Nat.le_succ _))

/-- A new pseudo element that repeats what a port feeds already does not change what is reached
from the old ports. -/
theorem reach_of_putIn (h : g.Coherent) (hx : via x) (helems : k.elements = g.elements ++ [x])
    (hin : x.inputIds = [g.entry]) (hout : x.outputIds = [g.exit])
    (hdown : ∀ c ∈ k.connections, c ∈ g.connections ∨ c = ⟨u, g.entry⟩ ∨
      (c.source = g.exit ∧ c.target < g.entry ∧ g.Reach via u c.target))
    (hup : ∀ c ∈ g.connections, k.Reach via c.source c.target) (hu : u < g.entry)
    {p q : PortId} (hp : p < g.entry) (hq : q < g.entry) :
    k.Reach via p q ↔ g.Reach via p q := by
  have down : ∀ a b, k.Hop via a b → g.Reach via (g.standIn u a) (g.standIn u b) := by
    intro a b hhop
    cases hhop with
    | along hc =>
      rcases hdown _ hc with hc | heq | ⟨hs, ht, hr⟩
      · rw [standIn_of_lt (h.source_lt hc), standIn_of_lt (h.target_lt hc)]
        exact .single (.along hc)
      · obtain ⟨rfl, rfl⟩ := Connection.mk.inj heq
        rw [standIn_entry, standIn_of_lt hu]
      · have hs : a = g.exit := hs
        rw [hs, standIn_exit, standIn_of_lt ht]
        exact hr
    | @inside e he hv ha hb =>
      rw [helems, List.mem_append, List.mem_singleton] at he
      rcases he with he | rfl
      · rw [standIn_of_lt (h.port_lt he (Element.mem_portIds.2 (.inl ha))),
          standIn_of_lt (h.port_lt he (Element.mem_portIds.2 (.inr hb)))]
        exact .single (.inside he hv ha hb)
      · rw [hin, List.mem_singleton] at ha
        rw [hout, List.mem_singleton] at hb
        rw [ha, hb, standIn_entry, standIn_exit]
  have up : ∀ a b, g.Hop via a b → k.Reach via a b := by
    intro a b hhop
    cases hhop with
    | along hc => exact hup _ hc
    | inside he hv ha hb =>
      exact .single (.inside (by rw [helems]; exact List.mem_append_left _ he) hv ha hb)
  constructor
  · intro hr
    have hlift : g.Reach via (g.standIn u p) (g.standIn u q) :=
      ReflTransGen.lift' (g.standIn u) down p q hr
    rwa [standIn_of_lt hp, standIn_of_lt hq] at hlift
  · exact fun hr => ReflTransGen.lift' id up p q hr

theorem reach_insertPseudoOn (h : g.Coherent) {c : Connection} (hc : c ∈ g.connections)
    {boundary : Boundary} (hx : via (g.freshPseudo (g.portType c.source) boundary))
    {p q : PortId} (hp : p < g.entry) (hq : q < g.entry) :
    (g.insertPseudoOn c boundary).Reach via p q ↔ g.Reach via p q := by
  have helems := elements_insertPseudoOn g c boundary
  have hnew : g.freshPseudo (g.portType c.source) boundary
      ∈ (g.insertPseudoOn c boundary).elements := by simp [helems]
  have hmem := fun c' => @mem_insertPseudoOn g c h hc boundary c'
  refine reach_of_putIn (u := c.source) h hx helems rfl rfl ?_ ?_ (h.source_lt hc) hp hq
  · intro c' hc'
    rcases (hmem c').1 hc' with ⟨hc', _⟩ | rfl | rfl
    · exact .inl hc'
    · exact .inr (.inl rfl)
    · exact .inr (.inr ⟨rfl, h.target_lt (c := c) hc, .single (.along hc)⟩)
  · intro c' hc'
    by_cases heq : c' = c
    · subst heq
      exact reach_through ((hmem _).2 (.inr (.inl rfl))) hnew hx (List.mem_singleton.2 rfl)
        (List.mem_singleton.2 rfl) ((hmem _).2 (.inr (.inr rfl)))
    · exact .single (.along ((hmem c').2 (.inl ⟨hc', heq⟩)))

theorem reach_insertPseudoAfter (h : g.Coherent) (hport : g.isOutputPort u = true)
    {boundary : Boundary} (hx : via (g.freshPseudo (g.portType u) boundary))
    {p q : PortId} (hp : p < g.entry) (hq : q < g.entry) :
    (g.insertPseudoAfter u boundary).Reach via p q ↔ g.Reach via p q := by
  have helems := elements_insertPseudoAfter g u boundary
  have hnew : g.freshPseudo (g.portType u) boundary
      ∈ (g.insertPseudoAfter u boundary).elements := by simp [helems]
  have hmem := fun c => @mem_insertPseudoAfter g u h hport boundary c
  refine reach_of_putIn (u := u) h hx helems rfl rfl ?_ ?_ (h.lt_of_isOutputPort hport) hp hq
  · intro c hc
    rcases (hmem c).1 hc with ⟨hc, _⟩ | rfl | ⟨hs, hold⟩
    · exact .inl hc
    · exact .inr (.inl rfl)
    · exact .inr (.inr ⟨hs, h.target_lt (c := ⟨u, c.target⟩) hold, .single (.along hold)⟩)
  · rintro ⟨s, t⟩ hc
    by_cases heq : s = u
    · subst heq
      exact reach_through ((hmem _).2 (.inr (.inl rfl))) hnew hx (List.mem_singleton.2 rfl)
        (List.mem_singleton.2 rfl) ((hmem _).2 (.inr (.inr ⟨rfl, hc⟩)))
    · exact .single (.along ((hmem _).2 (.inl ⟨hc, heq⟩)))

/-- A share of an identity runs beside the identity itself. -/
theorem reach_addShare (h : g.Coherent) {e : Element} (he : e ∈ g.elements) (hv : via e)
    {i o : Connection} (hi : i ∈ g.connections) (ho : o ∈ g.connections)
    (ht : i.target ∈ e.inputIds) (hs : o.source ∈ e.outputIds) {name type : String} {n : Nat}
    (hx : via (g.share name type n)) {p q : PortId} (hp : p < g.entry) (hq : q < g.entry) :
    (addShare name type g ((i, o), n)).Reach via p q ↔ g.Reach via p q := by
  have hmem := fun c => @mem_addShare g i o h hi ho name type n c
  refine reach_of_putIn (u := i.source) h hx (elements_addShare g name type ((i, o), n)) rfl rfl
    ?_ ?_ (h.source_lt hi) hp hq
  · intro c hc
    rcases (hmem c).1 hc with hc | rfl | rfl
    · exact .inl hc
    · exact .inr (.inl rfl)
    · exact .inr (.inr ⟨rfl, h.target_lt (c := o) ho, reach_through hi he hv ht hs ho⟩)
  · exact fun c hc => .single (.along ((hmem c).2 (.inl hc)))

end PutIn

/-! ## A pseudo element taken out -/

section TakeOut

variable {e : Element} {a b : PortId}

/-- The ports of a pseudo element belong to no other element. -/
theorem Coherent.port_ne (h : g.Coherent) (he : e ∈ g.elements) (hin : e.inputIds = [a])
    (hout : e.outputIds = [b]) {x : Element} {p : PortId} (hx : x ∈ g.elements) (hne : x ≠ e)
    (hp : p ∈ x.portIds) : p ≠ a ∧ p ≠ b := by
  refine ⟨?_, ?_⟩ <;> rintro rfl <;> refine hne (h.eq_of_port hx he hp (Element.mem_portIds.2 ?_))
  · exact .inl (by rw [hin]; exact List.mem_singleton_self _)
  · exact .inr (by rw [hout]; exact List.mem_singleton_self _)

/-- Where every pair of a port that fed the element and a port that it fed is joined in another
way, everything that is reached from the other ports is reached without the element. -/
theorem reach_without (h : g.Coherent) (he : e ∈ g.elements) (hin : e.inputIds = [a])
    (hout : e.outputIds = [b]) (helems : ∀ x ∈ g.elements, x ≠ e → x ∈ k.elements)
    (hkeep : ∀ c ∈ g.connections, c.source ≠ b → c.target ≠ a → c ∈ k.connections)
    (hbridge : ∀ u d, ⟨u, a⟩ ∈ g.connections → ⟨b, d⟩ ∈ g.connections → u ≠ b → d ≠ a →
      k.Reach via u d)
    {p q : PortId} (hp : p ≠ a ∧ p ≠ b) (hq : q ≠ a ∧ q ≠ b) (hr : g.Reach via p q) :
    k.Reach via p q := by
  have source_ne : ∀ c ∈ g.connections, c.source ≠ a := by
    rintro c hc rfl
    obtain ⟨x, hx, hs⟩ := h.source_mem hc
    exact h.not_mem_outputIds he hx (by rw [hin]; exact List.mem_singleton_self _) hs
  have target_ne : ∀ c ∈ g.connections, c.target ≠ b := by
    rintro c hc rfl
    obtain ⟨x, hx, ht⟩ := h.target_mem hc
    exact h.not_mem_outputIds hx he ht (by rw [hout]; exact List.mem_singleton_self _)
  -- While the path is at the element, the port from which it came there stands for it.
  have key : ∀ t, g.Reach via p t → (t ≠ a ∧ t ≠ b → k.Reach via p t) ∧
      (t = a ∨ t = b → ∃ u, ⟨u, a⟩ ∈ g.connections ∧ u ≠ b ∧ k.Reach via p u) := by
    intro t ht
    induction ht with
    | refl => exact ⟨fun _ => .refl, fun ht => (ht.elim hp.1 hp.2).elim⟩
    | @tail s t _ hhop ih =>
      cases hhop with
      | along hc =>
        by_cases hs : s = b
        · obtain ⟨u, hu, hub, hr⟩ := ih.2 (.inr hs)
          exact ⟨fun ht => hr.trans (hbridge u t hu (hs ▸ hc) hub ht.1), fun _ => ⟨u, hu, hub, hr⟩⟩
        · have hr := ih.1 ⟨source_ne _ hc, hs⟩
          refine ⟨fun ht => hr.tail (.along (hkeep _ hc hs ht.1)), ?_⟩
          intro hmem
          rcases hmem with rfl | rfl
          · exact ⟨s, hc, hs, hr⟩
          · exact absurd rfl (target_ne _ hc)
      | @inside x hx hv hs ht =>
        by_cases hxe : x = e
        · subst hxe
          rw [hin, List.mem_singleton] at hs
          rw [hout, List.mem_singleton] at ht
          exact ⟨fun hne => absurd ht hne.2, fun _ => ih.2 (.inl hs)⟩
        · have hs' := h.port_ne he hin hout hx hxe (Element.mem_portIds.2 (.inl hs))
          have ht' := h.port_ne he hin hout hx hxe (Element.mem_portIds.2 (.inr ht))
          exact ⟨fun _ => (ih.1 hs').tail (.inside (helems x hx hxe) hv hs ht),
            fun hor => (hor.elim ht'.1 ht'.2).elim⟩
  exact (key q hr).1 hq

theorem reach_bypass (h : g.Coherent) (hv : via e) (he : e ∈ g.elements) (hin : e.inputIds = [a])
    (hout : e.outputIds = [b]) {p q : PortId} (hp : p ≠ a ∧ p ≠ b) (hq : q ≠ a ∧ q ≠ b) :
    (g.bypass e.id).Reach via p q ↔ g.Reach via p q := by
  have hmem : ∀ u d, ⟨u, d⟩ ∈ (g.bypass e.id).connections ↔
      (⟨u, d⟩ ∈ g.connections ∨ ⟨u, a⟩ ∈ g.connections ∧ ⟨b, d⟩ ∈ g.connections) ∧
        u ≠ b ∧ d ≠ a := by
    intro u d
    rw [mem_bypass h he, hin, hout]
    simp only [List.mem_singleton, exists_eq_left]
  have helems := fun x => mem_elements_bypass h he (x := x)
  refine ⟨fun hr => ReflTransGen.lift' id (fun s t hhop => ?_) p q hr, reach_without h he hin hout
    (fun x hx hne => (helems x).2 ⟨hx, hne⟩) (fun c hc hs ht => (hmem _ _).2 ⟨.inl hc, hs, ht⟩)
    (fun u d hu hd hub hda => .single (.along ((hmem u d).2 ⟨.inr ⟨hu, hd⟩, hub, hda⟩))) hp hq⟩
  cases hhop with
  | along hc =>
    rcases ((hmem s t).1 hc).1 with hc | ⟨hs, ht⟩
    · exact .single (.along hc)
    · exact reach_through hs he hv (by rw [hin]; exact List.mem_singleton_self _)
        (by rw [hout]; exact List.mem_singleton_self _) ht
  | inside hx hvx hs ht => exact .single (.inside ((helems _).1 hx).1 hvx hs ht)

/-! ### Splitting -/

/-- Some identity other than a given one leads from one port to another. -/
def HasShare (k : FlowGraph) (e : Element) (u d : PortId) : Prop :=
  ∃ x ∈ k.elements, x ≠ e ∧ x.isIdentity = true ∧ ∃ s t, x.inputIds = [s] ∧ x.outputIds = [t] ∧
    ⟨u, s⟩ ∈ k.connections ∧ ⟨t, d⟩ ∈ k.connections

theorem HasShare.mono {l : FlowGraph} {u d : PortId} (hs : k.HasShare e u d)
    (helems : ∀ x ∈ k.elements, x ∈ l.elements)
    (hconns : ∀ c ∈ k.connections, c ∈ l.connections) : l.HasShare e u d := by
  obtain ⟨x, hx, hne, hi, s, t, hin, hout, hu, hd⟩ := hs
  exact ⟨x, helems x hx, hne, hi, s, t, hin, hout, hconns _ hu, hconns _ hd⟩

theorem addShare_hasShare (h : g.Coherent) (he : e ∈ g.elements) {i o : Connection}
    (hi : i ∈ g.connections) (ho : o ∈ g.connections) (name type : String) (n : Nat) :
    (addShare name type g ((i, o), n)).HasShare e i.source o.target := by
  have hmem := fun c => @mem_addShare g i o h hi ho name type n c
  refine ⟨g.share name type n, ?_, ?_, rfl, g.entry, g.exit, rfl, rfl,
    (hmem _).2 (.inr (.inl rfl)), (hmem _).2 (.inr (.inr rfl))⟩
  · rw [elements_addShare]
    exact List.mem_append_right _ (List.mem_singleton_self _)
  · intro heq
    subst heq
    exact Nat.lt_irrefl _ (h.port_lt he (Element.mem_portIds.2 (.inl (List.mem_singleton.2 rfl))))

theorem entry_le_addShare (g : FlowGraph) (name type : String)
    (pair : (Connection × Connection) × Nat) : g.entry ≤ (addShare name type g pair).entry := by
  obtain ⟨⟨i, o⟩, n⟩ := pair
  show g.ids.nextPort ≤ (addShare name type g ((i, o), n)).ids.nextPort
  rw [addShare, ids_connect, ids_connect]
  exact Nat.le_add_right _ 2

/-- Shares of an identity lie beside it, one for each of the pairs of connections. -/
theorem addShares_spec (h : g.Coherent) (he : e ∈ g.elements) (hv : via e)
    (hvia : ∀ x : Element, x.isIdentity = true → via x) (name type : String)
    (pairs : List ((Connection × Connection) × Nat))
    (hpairs : ∀ pair ∈ pairs, (pair.1.1 ∈ g.connections ∧ pair.1.1.target ∈ e.inputIds) ∧
      pair.1.2 ∈ g.connections ∧ pair.1.2.source ∈ e.outputIds) :
    (∀ c ∈ g.connections, c ∈ (g.addShares name type pairs).connections) ∧
    (∀ pair ∈ pairs, (g.addShares name type pairs).HasShare e pair.1.1.source pair.1.2.target) ∧
    ∀ p q, p < g.entry → q < g.entry →
      ((g.addShares name type pairs).Reach via p q ↔ g.Reach via p q) := by
  induction pairs generalizing g with
  | nil => exact ⟨fun c hc => hc, by simp, fun p q _ _ => Iff.rfl⟩
  | cons pair pairs ih =>
    obtain ⟨⟨i, o⟩, n⟩ := pair
    obtain ⟨⟨hi, ht⟩, ho, hs⟩ := hpairs _ List.mem_cons_self
    have hold : ∀ c ∈ g.connections, c ∈ (addShare name type g ((i, o), n)).connections :=
      fun c hc => (mem_addShare h hi ho name type n).2 (.inl hc)
    have hmem : e ∈ (addShare name type g ((i, o), n)).elements := by
      rw [elements_addShare]
      exact List.mem_append_left _ he
    obtain ⟨hconns, hshares, hreach⟩ := ih (addShare_coherent h name type _) hmem
      fun pair hp => by
        obtain ⟨⟨hi, ht⟩, ho, hs⟩ := hpairs pair (List.mem_cons_of_mem _ hp)
        exact ⟨⟨hold _ hi, ht⟩, hold _ ho, hs⟩
    refine ⟨fun c hc => hconns c (hold c hc), fun pair hp => ?_, fun p q hp hq => ?_⟩
    · rcases List.mem_cons.1 hp with rfl | hp
      · exact (addShare_hasShare h he hi ho name type n).mono
          (fun x hx => mem_addShares_of_mem name type pairs hx) hconns
      · exact hshares pair hp
    · have hle := entry_le_addShare g name type ((i, o), n)
      exact (hreach p q (Nat.lt_of_lt_of_le hp hle) (Nat.lt_of_lt_of_le hq hle)).trans
        (reach_addShare h he hv hi ho ht hs (hvia _ rfl) hp hq)

theorem reach_splitIdentity (h : g.Coherent) (he : e ∈ g.elements) (hi : e.isIdentity = true)
    (hvia : ∀ x : Element, x.isIdentity = true → via x) (hin : e.inputIds = [a])
    (hout : e.outputIds = [b]) {p q : PortId} (hp : p ≠ a ∧ p ≠ b) (hq : q ≠ a ∧ q ≠ b)
    (hpold : p < g.entry) (hqold : q < g.entry) :
    (g.splitIdentity e.id).Reach via p q ↔ g.Reach via p q := by
  let type := ((g.inputsOf e.id).head?.map (·.type)).getD ""
  let pairs := (g.throughputs e.id).zipIdx 1
  obtain ⟨hconns, hshares, hreach⟩ := addShares_spec h he (hvia e hi) hvia (g.nameOf e.id) type
    pairs fun pair hpair => (mem_throughputs h he).1 (List.fst_mem_of_mem_zipIdx hpair)
  have hl := addShares_coherent h (g.nameOf e.id) type pairs
  have hel := mem_addShares_of_mem (g.nameOf e.id) type pairs he
  have helems : ∀ x ∈ g.elements, x ≠ e → x ∈ (g.splitIdentity e.id).elements :=
    fun x hx hne => mem_splitIdentity_of_mem h he hx hne
  rw [splitIdentity_eq] at helems ⊢
  generalize g.addShares _ _ _ = l at *
  have hmem : ∀ c, c ∈ (l.removeElement e.id).connections ↔
      c ∈ l.connections ∧ c.source ≠ b ∧ c.target ≠ a := by
    intro c
    rw [mem_connections_removeElement hl hel, hin, hout, List.mem_singleton, List.mem_singleton]
  constructor
  · intro hr
    refine (hreach p q hpold hqold).1 (ReflTransGen.mono (fun s t hhop => ?_) p q hr)
    cases hhop with
    | along hc => exact .along ((hmem _).1 hc).1
    | inside hx hv hs ht => exact .inside ((mem_removeElement hl hel).1 hx).1 hv hs ht
  · refine reach_without h he hin hout helems
      (fun c hc hs ht => (hmem c).2 ⟨hconns c hc, hs, ht⟩) (fun u d hu hd hub hda => ?_) hp hq
    have hpair : (⟨u, a⟩, ⟨b, d⟩) ∈ ((g.throughputs e.id).zipIdx 1).map (·.1) := by
      rw [List.zipIdx_map_fst, mem_throughputs h he, hin, hout]
      exact ⟨⟨hu, List.mem_singleton_self _⟩, hd, List.mem_singleton_self _⟩
    obtain ⟨pair, hpair, heq⟩ := List.mem_map.1 hpair
    have hshare := hshares pair hpair
    rw [heq] at hshare
    obtain ⟨x, hx, hne, hi, s, t, hxin, hxout, hus, htd⟩ := hshare
    have hs := hl.port_ne hel hin hout hx hne (p := s) (by simp [Element.portIds_eq, hxin])
    have ht := hl.port_ne hel hin hout hx hne (p := t) (by simp [Element.portIds_eq, hxout])
    exact reach_through ((hmem _).2 ⟨hus, hub, hs.1⟩) ((mem_removeElement hl hel).2 ⟨hx, hne⟩)
      (hvia x hi) (by simp [hxin]) (by simp [hxout]) ((hmem _).2 ⟨htd, ht.2, hda⟩)

end TakeOut

end FlowGraph
end FlowPlan
