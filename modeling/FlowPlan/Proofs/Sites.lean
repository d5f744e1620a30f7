import FlowPlan.Legality
import FlowPlan.Proofs.WellFormed

/-!
The elements of a graph at all depths.

A site is an element together with the parts around it.  `Encloses` says which flow a list of parts
leads to; `sites` lists the elements of all these flows, an element in front of what is in it, and
`sites_enumerate` says that the list has each of them once.  What is computed by going down the
parts, with something that grows on the way, is computed site by site instead.
-/

namespace FlowPlan

/-- The list has what satisfies the predicate, each once. -/
structure Enumerates {α : Type} (xs : List α) (p : α → Prop) : Prop where
  once : xs.Nodup
  exact : ∀ x, x ∈ xs ↔ p x

namespace Enumerates

variable {α β : Type} {xs : List α} {p : α → Prop}

theorem congr {q : α → Prop} (h : Enumerates xs p) (hpq : ∀ x, p x ↔ q x) : Enumerates xs q :=
  ⟨h.once, fun x => (h.exact x).trans (hpq x)⟩

theorem filter {q : α → Bool} (h : Enumerates xs p) :
    Enumerates (xs.filter q) fun x => p x ∧ q x = true :=
  ⟨h.once.filter q, fun x => by rw [List.mem_filter, h.exact]⟩

/-- Pairs of something and one of what it has. -/
theorem pairs {f : α → List β} (h : Enumerates xs p) (hf : ∀ x, p x → (f x).Nodup) :
    Enumerates (xs.flatMap fun x => (f x).map (x, ·)) fun q => p q.1 ∧ q.2 ∈ f q.1 where
  once := by
    rw [List.nodup_flatMap]
    refine ⟨fun x hx => (hf x ((h.exact x).1 hx)).map fun _ _ heq => (Prod.mk.inj heq).2, ?_⟩
    refine h.once.imp fun {x y} hne q hx hy => hne ?_
    obtain ⟨b, -, rfl⟩ := List.mem_map.1 hx
    obtain ⟨b', -, heq⟩ := List.mem_map.1 hy
    exact (congrArg Prod.fst heq).symm
  exact := by
    rintro ⟨x, b⟩
    rw [List.mem_flatMap]
    constructor
    · rintro ⟨y, hy, hb⟩
      obtain ⟨b', hb', heq⟩ := List.mem_map.1 hb
      obtain ⟨rfl, rfl⟩ := Prod.mk.inj heq
      exact ⟨(h.exact y).1 hy, hb'⟩
    · rintro ⟨hx, hb⟩
      exact ⟨x, (h.exact x).2 hx, List.mem_map.2 ⟨b, hb, rfl⟩⟩

end Enumerates

/-- An element at some depth: the parts around it, the outermost first, and the flow that has it. -/
structure Site where
  path : List Element
  flow : FlowGraph
  element : Element

namespace Site

/-- As it is seen from outside of a part. -/
def under (e : Element) (s : Site) : Site := { s with path := e :: s.path }

/-- Its name behind those of the parts around it. -/
def name (s : Site) : String := ".".intercalate ((s.path ++ [s.element]).map (·.name))

def ref (s : Site) : ElementRef := { id := s.element.id, name := s.name }

theorem name_here (g : FlowGraph) (e : Element) : name ⟨[], g, e⟩ = e.name := by
  simp [name]

theorem name_under (e : Element) (s : Site) : (s.under e).name = e.name ++ "." ++ s.name := by
  rw [name, under, List.cons_append, List.map_cons, String.intercalate_cons_of_ne_nil (by simp)]
  rfl

theorem under_injective (e : Element) : Function.Injective (under e) := by
  rintro ⟨_, _, _⟩ ⟨_, _, _⟩ heq
  simpa [under] using heq

end Site

namespace FlowGraph

variable {g inner k : FlowGraph} {e : Element} {s : Site}

/-- The parts lead from the graph to the flow. -/
inductive Encloses : FlowGraph → List Element → FlowGraph → Prop
  | itself (g : FlowGraph) : Encloses g [] g
  | inPart {g inner k : FlowGraph} {e : Element} {path : List Element} (he : e ∈ g.elements)
      (hk : e.kind = .flowPart inner) (h : Encloses inner path k) : Encloses g (e :: path) k

/-- The element is one of the graph, at some depth. -/
def IsSite (g : FlowGraph) (s : Site) : Prop :=
  g.Encloses s.path s.flow ∧ s.element ∈ s.flow.elements

/-- What passes from a graph to the flows of its parts passes to all flows in it. -/
theorem Encloses.passes {P : FlowGraph → Prop} {path : List Element} (hk : g.Encloses path k)
    (step : ∀ {g inner : FlowGraph} {e : Element}, P g → e ∈ g.elements →
      e.kind = .flowPart inner → P inner) (h : P g) : P k := by
  induction hk with
  | itself => exact h
  | inPart he hk _ ih => exact ih (step h he hk)

theorem WellFormed.of_encloses {path : List Element} (h : g.WellFormed) (hk : g.Encloses path k) :
    k.WellFormed := hk.passes WellFormed.inner h

theorem IsSite.coherent (h : g.WellFormed) (hs : g.IsSite s) : s.flow.Coherent :=
  (h.of_encloses hs.1).coherent

/-! ## The list of all sites -/

/-- The elements at all depths, each in front of those in it. -/
def sites (g : FlowGraph) : List Site :=
  g.elements.attach.flatMap fun ⟨e, _⟩ =>
    { path := [], flow := g, element := e } ::
      match _hk : e.kind with
      | .flowPart inner => inner.sites.map (·.under e)
      | _ => []
termination_by sizeOf g
decreasing_by exact sizeOf_inner_lt (by assumption) (by assumption)

/-- The sites in an element. -/
def sitesIn (e : Element) : List Site :=
  match e.kind with
  | .flowPart inner => inner.sites.map (·.under e)
  | _ => []

theorem sites_eq (g : FlowGraph) :
    g.sites = g.elements.flatMap fun e => { path := [], flow := g, element := e } :: sitesIn e := by
  rw [sites]
  conv => rhs; rw [← List.attach_map_subtype_val g.elements, List.flatMap_map]
  refine List.flatMap_congr fun ⟨e, he⟩ _ => ?_
  obtain ⟨_, _, kind, _, _, _⟩ := e
  cases kind <;> rfl

theorem sitesIn_of_flowPart (hk : e.kind = .flowPart inner) :
    sitesIn e = inner.sites.map (·.under e) := by
  rw [sitesIn, hk]

theorem path_of_mem_sitesIn (hs : s ∈ sitesIn e) : ∃ path, s.path = e :: path := by
  unfold sitesIn at hs
  cases hk : e.kind with
  | flowPart inner =>
    rw [hk] at hs
    obtain ⟨t, -, rfl⟩ := List.mem_map.1 hs
    exact ⟨t.path, rfl⟩
  | _ => rw [hk] at hs; cases hs

theorem sitesIn_of_not_isFlowPart (hk : e.isFlowPart = false) : sitesIn e = [] := by
  unfold Element.isFlowPart at hk
  unfold sitesIn
  cases hkind : e.kind with
  | flowPart inner => rw [hkind] at hk; cases hk
  | _ => rfl

theorem mem_sites_of_isSite (hs : g.IsSite s) : s ∈ g.sites := by
  obtain ⟨path, k, x⟩ := s
  obtain ⟨hk, hx⟩ := hs
  dsimp only at hk hx
  induction hk with
  | itself g =>
    rw [sites_eq, List.mem_flatMap]
    exact ⟨x, hx, List.mem_cons_self⟩
  | @inPart g inner k e path he hkind _ ih =>
    rw [sites_eq, List.mem_flatMap]
    refine ⟨e, he, List.mem_cons_of_mem _ ?_⟩
    rw [sitesIn_of_flowPart hkind]
    exact List.mem_map.2 ⟨_, ih hx, rfl⟩

theorem isSite_of_mem_sites {g : FlowGraph} {s : Site} (hs : s ∈ g.sites) : g.IsSite s := by
  rw [sites_eq, List.mem_flatMap] at hs
  obtain ⟨e, he, hs⟩ := hs
  rcases List.mem_cons.1 hs with rfl | hs
  · exact ⟨.itself g, he⟩
  · unfold sitesIn at hs
    split at hs
    case h_1 inner hk =>
      obtain ⟨t, ht, rfl⟩ := List.mem_map.1 hs
      have := sizeOf_inner_lt he hk
      obtain ⟨hpath, hmem⟩ := isSite_of_mem_sites ht
      exact ⟨.inPart he hk hpath, hmem⟩
    case h_2 => cases hs
termination_by sizeOf g

theorem sites_nodup (h : g.WellFormed) : g.sites.Nodup := by
  induction h with
  | @intro g hg _ ih =>
    rw [sites_eq, List.nodup_flatMap]
    constructor
    · intro e he
      refine List.nodup_cons.2 ⟨fun hmem => ?_, ?_⟩
      · obtain ⟨path, hpath⟩ := path_of_mem_sitesIn hmem
        cases hpath
      · unfold sitesIn
        split
        case h_1 inner hk => exact (ih e he inner hk).map (Site.under_injective e)
        case h_2 => exact .nil
    · -- Sites of two elements differ in the element, or in the outermost part around it.
      refine hg.elements_nodup.imp fun {x y} hne s hx hy => hne ?_
      rcases List.mem_cons.1 hx with rfl | hx <;> rcases List.mem_cons.1 hy with hy | hy
      · exact congrArg Site.element hy
      · obtain ⟨path, hpath⟩ := path_of_mem_sitesIn hy
        cases hpath
      · obtain ⟨path, hpath⟩ := path_of_mem_sitesIn hx
        rw [hy] at hpath
        cases hpath
      · obtain ⟨path, hpath⟩ := path_of_mem_sitesIn hx
        obtain ⟨path', hpath'⟩ := path_of_mem_sitesIn hy
        exact (List.cons.inj (hpath.symm.trans hpath')).1

theorem sites_enumerate (h : g.WellFormed) : Enumerates g.sites g.IsSite :=
  ⟨sites_nodup h, fun _ => ⟨isSite_of_mem_sites, mem_sites_of_isSite⟩⟩

end FlowGraph
end FlowPlan
