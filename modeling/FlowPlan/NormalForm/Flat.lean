import FlowPlan.Graph.Construct

/-!
Flat graphs: every flow part replaced by the elements of its flow.

The parts are replaced one by one, the one with the smallest number first, and a part nested in
another becomes a part of the outer graph and has its turn later.  Each replacement lowers the
number of parts at all depths by one, which is why the process ends.
-/

namespace FlowPlan
namespace FlowGraph

/-- The data type of the first of some ports. -/
def firstType (ports : List Port) : String := (ports.head?.map (·.type)).getD ""

def decls (ports : List Port) : List PortDecl := ports.map (·.toPortDecl)

/-- What an element of a nested flow becomes outside: its name is qualified by the part's, and
inputs and outputs become identities of their data type. -/
def copyOf (part : String) (e : Element) : ElementDecl :=
  let name := s!"{part}.{e.name}"
  match e.kind with
  | .input => .pseudo name (firstType e.outputs) .none
  | .output => .pseudo name (firstType e.inputs) .none
  | .operator desc => .operator name desc (decls e.inputs) (decls e.outputs) e.boundary
  | .pseudo => .pseudo name (firstType e.inputs) e.boundary
  | .flowPart nested => .flowPart name nested

/-- A replacement under way: which inner ports have which copies, and the ports at which the
connections of the part continue. -/
structure Unfolding where
  graph : FlowGraph
  copies : List (PortId × PortId)
  /-- For each inner input, the port that receives what the part's input receives. -/
  entries : List PortId
  /-- For each inner output, the port that sends what the part's output sends. -/
  exits : List PortId

def pairPorts (inner copied : List Port) : List (PortId × PortId) :=
  (inner.map (·.id)).zip (copied.map (·.id))

def Unfolding.step (part : String) (s : Unfolding) (e : Element) : Unfolding :=
  let decl := copyOf part e
  let new := s.graph.numbered decl
  { graph := s.graph.add decl,
    copies := s.copies ++
      (if e.isInput then [] else pairPorts e.inputs new.inputs) ++
      (if e.isOutput then [] else pairPorts e.outputs new.outputs),
    entries := s.entries ++ (if e.isInput then (new.inputs.take 1).map (·.id) else []),
    exits := s.exits ++ (if e.isOutput then (new.outputs.take 1).map (·.id) else []) }

/-- The graph with a flow part replaced by copies of the elements of its flow.  Connections of the
part are tied to its entries and exits, by position. -/
def unfold (g : FlowGraph) (e : Element) (inner : FlowGraph) : FlowGraph :=
  let senders := e.inputs.map fun p => g.opposites p.id
  let receivers := e.outputs.map fun p => g.opposites p.id
  let s := inner.elements.foldl (Unfolding.step e.name)
    { graph := g.removeElement e.id, copies := [], entries := [], exits := [] }
  let inside := inner.connections.filterMap fun c => do
    return (← s.copies.lookup c.source, ← s.copies.lookup c.target)
  let before := (senders.zip s.entries).flatMap fun (us, entry) => us.map fun u => (u, entry)
  let behind := (receivers.zip s.exits).flatMap fun (ds, exit) => ds.map fun d => (exit, d)
  ((s.graph.connectAll inside).connectAll before).connectAll behind

/-! ## The number of parts -/

/-- The parts that an element is or holds. -/
def partsIn (e : Element) : Nat :=
  match e.kind with
  | .flowPart inner => inner.partCount + 1
  | _ => 0

theorem total_nil : total [] = 0 := rfl

theorem total_cons (n : Nat) (ns : List Nat) : total (n :: ns) = n + total ns := rfl

theorem total_append (ms ns : List Nat) : total (ms ++ ns) = total ms + total ns := by
  induction ms with
  | nil => rw [List.nil_append, total_nil, Nat.zero_add]
  | cons m ms ih => rw [List.cons_append, total_cons, total_cons, ih, Nat.add_assoc]

theorem partCount_eq (g : FlowGraph) : g.partCount = total (g.elements.map partsIn) := by
  rw [partCount]
  rw [show (g.elements.map partsIn) = (g.elements.attach.map fun e => partsIn e.1) by simp]
  congr 1
  refine List.map_congr_left fun ⟨e, he⟩ _ => ?_
  obtain ⟨_, _, kind, _, _, _⟩ := e
  cases kind <;> rfl

theorem partCount_of_elements_eq {g h : FlowGraph} (he : g.elements = h.elements) :
    g.partCount = h.partCount := by
  rw [partCount_eq, partCount_eq, he]

theorem elements_connect (g : FlowGraph) (u d : PortId) :
    (g.connect u d).elements = g.elements := by
  unfold connect
  split <;> rfl

theorem elements_connectAll (g : FlowGraph) (pairs : List (PortId × PortId)) :
    (g.connectAll pairs).elements = g.elements := by
  induction pairs generalizing g with
  | nil => rfl
  | cons p ps ih => exact (ih (g.connect p.1 p.2)).trans (elements_connect g p.1 p.2)

theorem partsIn_numbered (g : FlowGraph) (part : String) (e : Element) :
    partsIn (g.numbered (copyOf part e)) = partsIn e := by
  unfold copyOf partsIn
  cases hk : e.kind <;>
    simp [numbered, allot, ElementDecl.pseudo, ElementDecl.operator, ElementDecl.flowPart]

theorem partCount_foldl_step (part : String) (es : List Element) (s : Unfolding) :
    (es.foldl (Unfolding.step part) s).graph.partCount
      = s.graph.partCount + total (es.map partsIn) := by
  induction es generalizing s with
  | nil => rfl
  | cons e es ih =>
    rw [List.foldl_cons, ih]
    simp only [Unfolding.step, partCount_eq, add, List.map_append, List.map_cons, List.map_nil,
      total_append, total_cons, total_nil, partsIn_numbered]
    omega

/-- What is taken out by its number weighs at least as much as one thing of that number. -/
theorem total_filter_add_le {α : Type} (number weight : α → Nat) {x : α} {xs : List α}
    (hx : x ∈ xs) :
    total ((xs.filter (number · ≠ number x)).map weight) + weight x ≤ total (xs.map weight) := by
  have hle : ∀ l : List α,
      total ((l.filter (number · ≠ number x)).map weight) ≤ total (l.map weight) := by
    intro l
    induction l with
    | nil => exact Nat.le_refl _
    | cons y l ih => by_cases h : number y = number x <;> simp [h, total_cons] at ih ⊢ <;> omega
  induction xs with
  | nil => cases hx
  | cons y xs ih =>
    rcases List.mem_cons.1 hx with rfl | hx
    · have := hle xs
      simp [total_cons] at this ⊢
      omega
    · have := ih hx
      by_cases h : number y = number x <;> simp [h, total_cons] at this ⊢ <;> omega

/-- Unfolding a part leaves the parts nested in it and takes away the part itself. -/
theorem partCount_unfold_lt {g inner : FlowGraph} {e : Element} (he : e ∈ g.elements)
    (hk : e.kind = .flowPart inner) : (g.unfold e inner).partCount < g.partCount := by
  have hparts : partsIn e = inner.partCount + 1 := by simp [partsIn, hk]
  have hremoved : (g.removeElement e.id).partCount + partsIn e ≤ g.partCount := by
    have hfound : (g.element? e.id).isSome :=
      List.find?_isSome.2 ⟨e, he, by simp⟩
    obtain ⟨e', he'⟩ := Option.isSome_iff_exists.1 hfound
    rw [partCount_eq, partCount_eq, removeElement, he']
    exact total_filter_add_le (·.id) partsIn he
  have hfold := partCount_foldl_step e.name inner.elements
    { graph := g.removeElement e.id, copies := [], entries := [], exits := [] }
  simp only [← partCount_eq inner] at hfold
  rw [unfold]
  simp only [partCount_of_elements_eq (elements_connectAll _ _)]
  omega

/-! ## Flattening -/

/-- The first flow part of a graph and its flow. -/
def firstPart? (g : FlowGraph) : Option (Element × FlowGraph) :=
  g.elements.findSome? fun e =>
    match e.kind with
    | .flowPart inner => some (e, inner)
    | _ => none

theorem firstPart?_eq_some {g inner : FlowGraph} {e : Element}
    (h : g.firstPart? = some (e, inner)) : e ∈ g.elements ∧ e.kind = .flowPart inner := by
  obtain ⟨e', he', h⟩ := List.exists_of_findSome?_eq_some h
  cases hk : e'.kind <;> simp [hk] at h
  obtain ⟨rfl, rfl⟩ := h
  exact ⟨he', hk⟩

/-- Replace every flow part, at all depths, and count the replacements. -/
def flatten (g : FlowGraph) : FlowGraph × Nat :=
  match _h : g.firstPart? with
  | none => (g, 0)
  | some (e, inner) =>
    let (flat, count) := (g.unfold e inner).flatten
    (flat, count + 1)
termination_by g.partCount
decreasing_by
  obtain ⟨he, hk⟩ := firstPart?_eq_some _h
  exact partCount_unfold_lt he hk

end FlowGraph
end FlowPlan
