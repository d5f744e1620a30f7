import FlowPlan.Proofs.ShuffleModels

/-!
Where the source class of a segment comes from.

An input port may be connected to any number of output ports, and a segment has one source class.
It is that of the first connection, and the others are not looked at: neither whether their types
are known, nor whether they are the same.  So a segment describes all that enters its port exactly
if all of it is of one type, and `plan_describes_producers_iff` says so.  `blend` is a shuffle
without diagnostics into which records of an unknown type go.
-/

namespace FlowPlan

theorem Catalog.name_of_find? {α : Type} [Named α] {c : Catalog α} {name : String} {x : α}
    (h : c.find? name = some x) : Named.name x = name := by
  simpa using List.find?_some h

/-- The records of an output port are of the class that a segment says its records come in. -/
def Segment.Describes (s : Segment) (g : FlowGraph) (classes : DataClassRegistry) (u : PortId) :
    Prop :=
  classes.find? (g.portType u) = some s.source

namespace Shuffle

open StageGraph FlowGraph

variable {g : FlowGraph} {stage : Stage} {processors : ProcessorRegistry}
  {classes : DataClassRegistry} {s : Segment} {u v : PortId}

/-- A segment is that of an input port, whose classes are known. -/
theorem exists_input_of_mem_modelOf (h : g.Coherent)
    (hs : s ∈ (modelOf (plan g).1 stage processors classes).segments) :
    ∃ e ∈ g.elements, ∃ p ∈ e.inputs, s.port = p.id ∧
      classes.find? (sourceType g p) = some s.source ∧ classes.find? p.type = some s.target := by
  obtain ⟨e, i, he, -, p, hp, hplace, s', hs', heq⟩ := kept_of_mem_modelOf hs
  obtain ⟨key, source, target, -, hsource, htarget, -, rfl⟩ :=
    resolvePort_ok_iff.1 (kept?_spec hs').1
  have hport : s.port = p.id := congrArg Place.port hplace
  rw [heq] at hport ⊢
  exact ⟨e, (element_of_mem_zipIdx h he).1, p, hp, hport, hsource, htarget⟩

theorem portType_eq_of_describes (hu : s.Describes g classes u) (hv : s.Describes g classes v) :
    g.portType u = g.portType v :=
  (Catalog.name_of_find? hu).symm.trans (Catalog.name_of_find? hv)

/-- A segment describes the records of the first connection into its port, and those of all
connections exactly if they are of one type.  A port that nothing is connected to is taken to be
fed in its own type. -/
theorem plan_describes_producers_iff (h : g.WellFormed) {m : ShuffleModel}
    (hm : (analyzeShuffle (plan g).1 stage processors classes).1 = some m) (hs : s ∈ m.segments) :
    (∀ u ∈ (g.opposites s.port).head?, s.Describes g classes u) ∧
      (g.opposites s.port = [] → s.source = s.target) ∧
      ((∀ u, ⟨u, s.port⟩ ∈ g.connections → s.Describes g classes u) ↔
        ∀ u v, ⟨u, s.port⟩ ∈ g.connections → ⟨v, s.port⟩ ∈ g.connections →
          g.portType u = g.portType v) := by
  obtain ⟨rfl, -⟩ := eq_of_analyzeShuffle hm
  obtain ⟨e, he, p, hp, hport, hsource, htarget⟩ := exists_input_of_mem_modelOf h.coherent hs
  have hconnected : ∀ u, u ∈ g.opposites s.port ↔ ⟨u, s.port⟩ ∈ g.connections := fun u =>
    h.coherent.mem_opposites_of_isInputPort
      (isInputPort_iff.2 ⟨e, he, hport ▸ List.mem_map_of_mem hp⟩)
  simp only [← hconnected]
  rw [sourceType, ← hport] at hsource
  -- Only the first of the ports in front goes into the source class.
  cases hopposites : g.opposites s.port with
  | nil =>
    rw [hopposites] at hsource
    exact ⟨by simp, fun _ => Option.some.inj (hsource.symm.trans htarget), by simp⟩
  | cons first rest =>
    rw [hopposites] at hsource
    have hfirst : s.Describes g classes first := hsource
    refine ⟨by simpa using hfirst, by simp, fun hall u v hu hv => ?_, fun hsame u hu => ?_⟩
    · exact portType_eq_of_describes (hall u hu) (hall v hv)
    · rw [Segment.Describes, hsame u first hu List.mem_cons_self]
      exact hfirst

/-- Two operators that send records to one operator, each in a type of its own. -/
def blend (first second : String) : FlowGraph :=
  let plain (name : String) : PortDecl := .plain name "Record"
  let key : PortDecl := { plain "in" with key := some ⟨["key"], []⟩ }
  let work (name kind : String) (input : PortDecl) (type : String) (boundary : Boundary) :
      ElementDecl :=
    .operator name { name, kind, resources := [] } [input] [.plain "out" type] boundary
  assemble
    [.input "in" "Record", work "a" "update" (plain "in") first .none,
      work "b" "update" (plain "in") second .none, work "r" "cogroup" key "Record" .shuffle,
      .output "out" "Record"]
    [(0, 1), (0, 3), (2, 5), (4, 5), (6, 7)]

def store : DataClass := { name := "Store", properties := [] }

def keyed : DataClass := { name := "Record", properties := [{ name := "key", type := .text }] }

def storeSegment : Segment :=
  { elementIndex := 0, portIndex := 1, element := 3, port := 5, source := store, target := keyed,
    terms := [⟨1, { name := "key", type := .text }, .grouping⟩] }

theorem blend_wellFormed (first second : String) : (blend first second).WellFormed :=
  assemble_wellFormed _ (by simp)

theorem blend_stages (second : String) :
    (plan (blend "Store" second)).1.stages = [⟨1, [1, 2], [3]⟩] :=
  (stages_of_singleton 1 (by cbv)).trans (by cbv)

/-- The type in which the second operator sends its records makes no difference. -/
theorem blend_shuffle (second : String) :
    analyzeShuffle (plan (blend "Store" second)).1 ⟨1, [1, 2], [3]⟩ cogroupAndUpdate
      (Catalog.ofList [keyed, store]) = (some ⟨1, [storeSegment], false⟩, []) := by
  rw [Compilation.plan_eq]
  cbv

theorem connections_blend (first second : String) : (blend first second).connections
    = [⟨0, 1⟩, ⟨0, 3⟩, ⟨2, 5⟩, ⟨4, 5⟩, ⟨6, 7⟩] := by
  cbv

/-- Where both operators send stores, the segment describes both. -/
theorem stores_described :
    (blend "Store" "Store").WellFormed ∧
      (analyzeShuffle (plan (blend "Store" "Store")).1 ⟨1, [1, 2], [3]⟩ cogroupAndUpdate
        (Catalog.ofList [keyed, store])).1 = some ⟨1, [storeSegment], false⟩ ∧
      ∀ u, ⟨u, 5⟩ ∈ (blend "Store" "Store").connections →
        storeSegment.Describes (blend "Store" "Store") (Catalog.ofList [keyed, store]) u := by
  have hwf := blend_wellFormed "Store" "Store"
  have hm := congrArg Prod.fst (blend_shuffle "Store")
  have htype : ∀ u, ⟨u, 5⟩ ∈ (blend "Store" "Store").connections →
      (blend "Store" "Store").portType u = "Store" := by
    intro u hu
    have hsource : u = 2 ∨ u = 4 := by simpa [connections_blend] using hu
    rcases hsource with rfl | rfl <;> cbv
  obtain ⟨-, -, hall⟩ := plan_describes_producers_iff hwf hm List.mem_cons_self
  exact ⟨hwf, hm, hall.2 fun u v hu hv => (htype u hu).trans (htype v hv).symm⟩

/-- Nothing is reported where the second operator sends records of an unknown type.  Where the
first one does so it is. -/
theorem ghosts_unreported :
    (blend "Store" "Ghost").WellFormed ∧
      (plan (blend "Store" "Ghost")).1.stages = [⟨1, [1, 2], [3]⟩] ∧
      analyzeShuffle (plan (blend "Store" "Ghost")).1 ⟨1, [1, 2], [3]⟩ cogroupAndUpdate
        (Catalog.ofList [keyed, store]) = (some ⟨1, [storeSegment], false⟩, []) ∧
      ⟨4, storeSegment.port⟩ ∈ (blend "Store" "Ghost").connections ∧
      (Catalog.ofList [keyed, store]).find? ((blend "Store" "Ghost").portType 4) = none ∧
      ¬ storeSegment.Describes (blend "Store" "Ghost") (Catalog.ofList [keyed, store]) 4 ∧
      (resolutions (plan (blend "Ghost" "Store")).1 ⟨1, [1, 2], [3]⟩ cogroupAndUpdate
        (Catalog.ofList [keyed, store])).map (fun (_, segments, faults) =>
          (segments, faults.map (·.code))) = [([], [.unknownClass])] := by
  have hconnected : ⟨4, storeSegment.port⟩ ∈ (blend "Store" "Ghost").connections := by
    simp [connections_blend, storeSegment]
  have hnone : (Catalog.ofList [keyed, store]).find? ((blend "Store" "Ghost").portType 4)
      = none := by
    cbv
  refine ⟨blend_wellFormed _ _, blend_stages _, blend_shuffle _, hconnected, hnone,
    fun h => Option.some_ne_none _ (h.symm.trans hnone), ?_⟩
  rw [Compilation.plan_eq]
  cbv

end Shuffle
end FlowPlan
