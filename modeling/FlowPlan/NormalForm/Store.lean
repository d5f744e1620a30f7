import FlowPlan.Graph.Store
import FlowPlan.NormalForm

/-!
The steps of normalization on stored graphs.

Each step reads and writes the two tables by the operations on stored graphs alone.  It has no
result where it reads a port or an element that is not there, so that it has one is a statement
about the tables: the loops below go over elements, ports and connections that were listed before
the first change.
-/

namespace FlowPlan
namespace FlowStore

/-! ## Parts -/

/-- The data type of the first of some ports, empty if it is not there. -/
def firstType (s : FlowStore) (ports : List PortId) : String :=
  ((ports.head?.bind s.port?).map (·.type)).getD ""

/-- A replacement under way: which inner ports have which copies, and the identities that stand for
the inner inputs and outputs. -/
structure Inlining where
  store : FlowStore
  copies : List (PortId × PortId)
  entries : List ElementId
  exits : List ElementId

/-- Add what an element of a nested flow becomes outside. -/
def addCopy? (s inner : FlowStore) (part : String) (e : StoredElement) :
    Option (ElementId × FlowStore) :=
  let name := s!"{part}.{e.name}"
  match e.kind with
  | .input => some (s.addPseudo name (inner.firstType e.outputs) .none)
  | .output => some (s.addPseudo name (inner.firstType e.inputs) .none)
  | .operator desc => do
    let inputs ← e.inputs.mapM inner.decl?
    let outputs ← e.outputs.mapM inner.decl?
    return s.addOperator name desc inputs outputs e.boundary
  | .pseudo => some (s.addPseudo name (inner.firstType e.inputs) e.boundary)
  | .flowPart nested => s.addFlowPart? name nested

def Inlining.step? (inner : FlowStore) (part : String) (t : Inlining) (e : StoredElement) :
    Option Inlining := do
  let (id, store) ← t.store.addCopy? inner part e
  let new ← store.element? id
  return {
    store,
    copies := t.copies ++
      (if e.plain.isInput then [] else e.inputs.zip new.inputs) ++
      (if e.plain.isOutput then [] else e.outputs.zip new.outputs),
    entries := t.entries ++ (if e.plain.isInput then [id] else []),
    exits := t.exits ++ (if e.plain.isOutput then [id] else []) }

/-- The graph with a flow part replaced by copies of the elements of its flow.  Connections of the
part are tied to its entries and exits, by position. -/
def unfoldPart? (s : FlowStore) (e : StoredElement) (inner : FlowStore) : Option FlowStore := do
  let senders := e.inputs.map s.opposites
  let receivers := e.outputs.map s.opposites
  let t ← inner.elements.foldlM (Inlining.step? inner e.name)
    { store := s.removeElement e.id, copies := [], entries := [], exits := [] }
  let inside := inner.connections.filterMap fun c => do
    return (← t.copies.lookup c.source, ← t.copies.lookup c.target)
  let before ← (senders.zip t.entries).mapM fun (us, i) =>
    (t.store.entry? i).map fun entry => us.map fun u => (u, entry)
  let behind ← (receivers.zip t.exits).mapM fun (ds, i) =>
    (t.store.exit? i).map fun exit => ds.map fun d => (exit, d)
  return ((t.store.connectAll inside).connectAll before.flatten).connectAll behind.flatten

/-! ### The number of parts -/

mutual

/-- The flow parts that an element of this kind is or holds. -/
def partsInKind : StoredKind → Nat
  | .flowPart inner => partCount inner + 1
  | _ => 0

def partsIn : StoredElement → Nat
  | ⟨_, _, kind, _, _, _⟩ => partsInKind kind

def partsInAll : List StoredElement → Nat
  | [] => 0
  | e :: es => partsIn e + partsInAll es

/-- The flow parts at all depths. -/
def partCount : FlowStore → Nat
  | ⟨_, elements, _, _⟩ => partsInAll elements

end

theorem partsIn_eq (e : StoredElement) : partsIn e = partsInKind e.kind := by
  cases e
  rw [partsIn]

theorem partsInAll_eq (es : List StoredElement) :
    partsInAll es = FlowGraph.total (es.map partsIn) := by
  induction es with
  | nil => rw [partsInAll, List.map_nil, FlowGraph.total_nil]
  | cons e es ih => rw [partsInAll, List.map_cons, FlowGraph.total_cons, ih]

theorem partCount_eq (s : FlowStore) : s.partCount = FlowGraph.total (s.elements.map partsIn) := by
  cases s
  rw [partCount, partsInAll_eq]

theorem elements_connectAll (s : FlowStore) (pairs : List (PortId × PortId)) :
    (s.connectAll pairs).elements = s.elements := by
  induction pairs generalizing s with
  | nil => rfl
  | cons p pairs ih =>
    show ((s.connect p.1 p.2).connectAll pairs).elements = s.elements
    rw [ih, connect]
    split <;> rfl

theorem elements_addPorts (owner : ElementId) (direction : Direction) (s : FlowStore)
    (ds : List PortDecl) : (addPorts owner direction s ds).2.elements = s.elements := by
  induction ds generalizing s with
  | nil => rfl
  | cons d ds ih => exact ih (addPort owner direction s d).2

theorem total_put_le {α : Type} (number weight : α → Nat) (x : α) (ys : List α) :
    FlowGraph.total ((Table.put number x ys).map weight)
      ≤ FlowGraph.total (ys.map weight) + weight x := by
  induction ys with
  | nil => simp [Table.put, FlowGraph.total]
  | cons y ys ih =>
    unfold Table.put
    split
    · simp [FlowGraph.total_cons]; omega
    · split <;> simp only [List.map_cons, FlowGraph.total_cons] <;> omega

variable {s t inner : FlowStore} {part : String} {e : StoredElement}

/-- Adding an element adds at most the parts that it is or holds. -/
theorem partCount_addElement_le (s : FlowStore) (name : String) (kind : StoredKind)
    (boundary : Boundary) (inputs outputs : List PortDecl) :
    (s.addElement name kind boundary inputs outputs).2.partCount
      ≤ s.partCount + partsInKind kind := by
  rw [partCount_eq, partCount_eq]
  refine Nat.le_trans (total_put_le (·.id) partsIn _ _) (Nat.le_of_eq ?_)
  rw [elements_addPorts, elements_addPorts, partsIn_eq]

/-- A copy is or holds the parts that its original is or holds. -/
theorem addCopy?_eq_some {id : ElementId} (h : s.addCopy? inner part e = some (id, t)) :
    ∃ name kind boundary inputs outputs,
      s.addElement name kind boundary inputs outputs = (id, t) ∧
        partsInKind kind = partsInKind e.kind := by
  unfold addCopy? at h
  cases hk : e.kind with
  | input =>
    simp only [hk, Option.some.injEq] at h
    exact ⟨_, .pseudo, _, _, _, h, by rw [partsInKind, partsInKind] <;> simp⟩
  | output =>
    simp only [hk, Option.some.injEq] at h
    exact ⟨_, .pseudo, _, _, _, h, by rw [partsInKind, partsInKind] <;> simp⟩
  | operator desc =>
    simp only [hk, Option.bind_eq_bind, Option.bind_eq_some_iff, Option.pure_def,
      Option.some.injEq] at h
    obtain ⟨inputs, -, outputs, -, h⟩ := h
    exact ⟨_, .operator desc, _, _, _, h, rfl⟩
  | pseudo =>
    simp only [hk, Option.some.injEq] at h
    exact ⟨_, .pseudo, _, _, _, h, rfl⟩
  | flowPart nested =>
    simp only [hk, addFlowPart?, Option.bind_eq_bind, Option.bind_eq_some_iff, Option.pure_def,
      Option.some.injEq] at h
    obtain ⟨inputs, -, outputs, -, h⟩ := h
    exact ⟨_, .flowPart nested, _, _, _, h, rfl⟩

theorem partCount_copies_le {es : List StoredElement} {a b : Inlining}
    (h : es.foldlM (Inlining.step? inner part) a = some b) :
    b.store.partCount ≤ a.store.partCount + FlowGraph.total (es.map partsIn) := by
  induction es generalizing a with
  | nil =>
    rw [Option.some.inj h]
    exact Nat.le_add_right _ _
  | cons e es ih =>
    rw [List.foldlM_cons, Option.bind_eq_bind, Option.bind_eq_some_iff] at h
    obtain ⟨c, hstep, hrest⟩ := h
    simp only [Inlining.step?, Option.bind_eq_bind, Option.bind_eq_some_iff, Option.pure_def,
      Option.some.injEq] at hstep
    obtain ⟨⟨id, store⟩, hcopy, new, -, rfl⟩ := hstep
    obtain ⟨name, kind, boundary, inputs, outputs, hadd, hparts⟩ := addCopy?_eq_some hcopy
    have hstore := partCount_addElement_le a.store name kind boundary inputs outputs
    have hcopies := ih hrest
    rw [hadd, hparts, ← partsIn_eq] at hstore
    rw [List.map_cons, FlowGraph.total_cons]
    simp only at hstore hcopies
    omega

theorem partCount_removeElement_add_le (he : e ∈ s.elements) :
    (s.removeElement e.id).partCount + partsIn e ≤ s.partCount := by
  obtain ⟨x, hx⟩ := Option.isSome_iff_exists.1
    (List.find?_isSome.2 ⟨e, he, beq_self_eq_true e.id⟩ : (s.element? e.id).isSome = true)
  rw [partCount_eq, partCount_eq, removeElement, show s.element? e.id = some x from hx]
  exact FlowGraph.total_filter_add_le (·.id) partsIn he

/-- Unfolding a part leaves the parts nested in it and takes away the part itself. -/
theorem partCount_unfoldPart?_lt (he : e ∈ s.elements) (hk : e.kind = .flowPart inner)
    (h : s.unfoldPart? e inner = some t) : t.partCount < s.partCount := by
  simp only [unfoldPart?, Option.bind_eq_bind, Option.bind_eq_some_iff, Option.pure_def,
    Option.some.injEq] at h
  obtain ⟨copied, hcopied, before, -, behind, -, rfl⟩ := h
  have hcopies := partCount_copies_le hcopied
  have hremoved := partCount_removeElement_add_le he
  rw [← partCount_eq] at hcopies
  rw [partsIn_eq, hk, partsInKind] at hremoved
  rw [partCount_eq, elements_connectAll, elements_connectAll, elements_connectAll, ← partCount_eq]
  simp only at hcopies
  omega

/-! ### Flattening -/

/-- The first flow part of a graph and its flow. -/
def firstPart? (s : FlowStore) : Option (StoredElement × FlowStore) :=
  s.elements.findSome? fun e =>
    match e.kind with
    | .flowPart inner => some (e, inner)
    | _ => none

theorem firstPart?_eq_some (h : s.firstPart? = some (e, inner)) :
    e ∈ s.elements ∧ e.kind = .flowPart inner := by
  obtain ⟨x, hx, h⟩ := List.exists_of_findSome?_eq_some h
  cases hk : x.kind <;> simp [hk] at h
  obtain ⟨rfl, rfl⟩ := h
  exact ⟨hx, hk⟩

/-- Replace every flow part, at all depths, and count the replacements. -/
def flatten? (s : FlowStore) : Option (FlowStore × Nat) :=
  match _hpart : s.firstPart? with
  | none => some (s, 0)
  | some (e, inner) =>
    match _hunfold : s.unfoldPart? e inner with
    | none => none
    | some t => t.flatten?.map fun (flat, count) => (flat, count + 1)
termination_by s.partCount
decreasing_by
  obtain ⟨he, hk⟩ := firstPart?_eq_some _hpart
  exact partCount_unfoldPart?_lt he hk _hunfold

/-! ## Checkpoints -/

/-- What follows a shuffle without a boundary in between leads into another shuffle, or is also fed
from elsewhere. -/
def diverges? (s : FlowStore) (shuffle : ElementId) : Option Bool := do
  let next e := ((s.successors? e).getD []).filter fun x =>
    x ≠ shuffle && !s.satisfies (·.isBoundary) x
  let region := Search.reach next s.elementIds [shuffle]
  let behind ← region.mapM s.successors?
  let before ← (region.filter (· ≠ shuffle)).mapM s.predecessors?
  return behind.any (·.any fun x => x ≠ shuffle && s.satisfies (·.isShuffleBoundary) x)
    || before.any (·.any (· ∉ region))

/-- Materialize one output port of a diverging shuffle, unless it feeds nothing or checkpoints
only. -/
def checkpointBehind? (a : FlowStore × Nat) (p : PortId) : Option (FlowStore × Nat) := do
  let owners ← (a.1.opposites p).mapM a.1.owner?
  if owners.all (a.1.satisfies (·.isCheckpoint)) then return a
  return (← a.1.insertPseudoAfter? p .stage, a.2 + 1)

def checkpointShuffle? (a : FlowStore × Nat) (shuffle : ElementId) :
    Option (FlowStore × Nat) := do
  if ← a.1.diverges? shuffle then
    let e ← a.1.element? shuffle
    e.outputs.foldlM checkpointBehind? a
  else return a

/-- Materialize one connection into a stage head. -/
def checkpointOn? (a : FlowStore × Nat) (c : Connection) : Option (FlowStore × Nat) := do
  let owner ← a.1.owner? c.source
  if a.1.satisfies (·.isStageBoundary) owner then return a
  return (← a.1.insertPseudoOn? c .stage, a.2 + 1)

def checkpointHead? (a : FlowStore × Nat) (head : ElementId) : Option (FlowStore × Nat) :=
  (a.1.incoming head).foldlM checkpointOn? a

/-- Insert checkpoints behind diverging shuffles and in front of stage heads, and count them. -/
def insertCheckpoints? (s : FlowStore) : Option (FlowStore × Nat) := do
  let a ← (s.idsWhere (·.isShuffleBoundary)).foldlM checkpointShuffle? (s, 0)
  (a.1.idsWhere (·.isStageHead)).foldlM checkpointHead? a

/-! ## Identities -/

/-- Put an identity onto a connection from materialized data into a shuffle or a stage head. -/
def identityOn? (a : FlowStore × Nat) (c : Connection) : Option (FlowStore × Nat) := do
  let before ← a.1.owner? c.source
  let behind ← a.1.owner? c.target
  if a.1.satisfies (·.isStageBoundary) before
      && (a.1.satisfies (·.isShuffleBoundary) behind || a.1.satisfies (·.isStageHead) behind) then
    return (← a.1.insertPseudoOn? c .none, a.2 + 1)
  return a

def insertIdentities? (s : FlowStore) : Option (FlowStore × Nat) :=
  s.connections.foldlM identityOn? (s, 0)

/-- Add one copy of an identity for one pair of connections. -/
def addShare? (name type : String) (s : FlowStore) (pair : (Connection × Connection) × Nat) :
    Option FlowStore := do
  let ((i, o), n) := pair
  let (id, s) := s.addPseudo s!"{name}~{n}" type .none
  let entry ← s.entry? id
  let exit ← s.exit? id
  return (s.connect i.source entry).connect exit o.target

/-- Replace an identity by one copy for each pair of an incoming and an outgoing connection, if it
has several of both. -/
def splitIfShared? (a : FlowStore × Nat) (id : ElementId) : Option (FlowStore × Nat) := do
  let incoming := a.1.incoming id
  let outgoing := a.1.outgoing id
  if incoming.length ≤ 1 ∨ outgoing.length ≤ 1 then return a
  let e ← a.1.element? id
  let pairs := incoming.flatMap fun i => outgoing.map fun o => (i, o)
  let s ← (pairs.zipIdx 1).foldlM (addShare? e.name (a.1.firstType e.inputs)) a.1
  return (s.removeElement id, a.2 + 1)

def splitIdentities? (s : FlowStore) : Option (FlowStore × Nat) :=
  (s.idsWhere (·.isIdentity)).foldlM splitIfShared? (s, 0)

/-- An identity that is a map side: fed by materialized data only, and feeding boundaries only. -/
def isMapBody? (s : FlowStore) (e : ElementId) : Option Bool := do
  let before ← s.predecessors? e
  let behind ← s.successors? e
  return !before.isEmpty && !behind.isEmpty && before.all (s.satisfies (·.isStageBoundary))
    && behind.all (s.satisfies (·.isBoundary))

def bypassUnlessMap? (a : FlowStore × Nat) (e : ElementId) : Option (FlowStore × Nat) := do
  if !a.1.contains e then return a
  if ← a.1.isMapBody? e then return a
  return (a.1.bypass e, a.2 + 1)

def reduceIdentities? (s : FlowStore) : Option (FlowStore × Nat) :=
  (s.idsWhere (·.isIdentity)).foldlM bypassUnlessMap? (s, 0)

/-! ## All steps -/

/-- Bring a stored graph into normal form. -/
def normalize? (s : FlowStore) : Option (FlowStore × NormalizationCounts) := do
  let (s, partsInlined) ← s.flatten?
  let (s, checkpointsInserted) ← s.insertCheckpoints?
  let (s, identitiesInserted) ← s.insertIdentities?
  let (s, identitiesSplit) ← s.splitIdentities?
  let (s, identitiesRemoved) ← s.reduceIdentities?
  return (s, { partsInlined, checkpointsInserted, identitiesInserted, identitiesSplit,
               identitiesRemoved })

end FlowStore
end FlowPlan
