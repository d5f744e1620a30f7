import FlowPlan.Proofs.Rendezvous

/-!
The segment of one input, and what stands in its place.

An input of an element whose records are shuffled has a segment or faults, never both and never
neither.  `resolvePort_ok_iff` says which inputs can have one and what is in it.  An element keeps
those that group like its first one, and `resolveElement_accounts` puts the faults that it reports
back to the inputs they are about.
-/

namespace FlowPlan

namespace ShuffleFault

/-- How messages refer to the input that a fault is about. -/
def label? : ShuffleFault → Option String
  | noRendezvous _ => none
  | noKey label | unknownSource _ label | unknownTarget _ label | unknownProperty _ _ label
  | groupingCount label _ _ | groupingTypes label => some label

/-- The codes of faults that are about one input. -/
def inputCodes : List Code :=
  [.unknownClass, .unknownProperty, .groupingMismatch, .missingKey]

theorem code_mem_inputCodes {f : ShuffleFault} {label : String} (h : f.label? = some label) :
    f.code ∈ inputCodes := by
  cases f with
  | noRendezvous => cases h
  | _ => simp [code, inputCodes]

end ShuffleFault

theorem DataClass.name_of_findProperty? {c : DataClass} {name : String} {p : Property}
    (h : c.findProperty? name = some p) : p.name = name := by
  simpa using List.find?_some h

namespace Shuffle

/-! ## Terms -/

/-- A segment in the terms of its port: the declared class has all properties that the key names,
and the terms are these, those to group by first. -/
structure IsResolved (classes : DataClassRegistry) (p : Port) (s : Segment) : Prop where
  target : classes.find? p.type = some s.target
  terms : ∃ key, p.key = some key ∧ s.terms.map (fun t => (t.property.name, t.arrangement)) =
    key.group.map (·, .grouping) ++ key.order.map fun o => (o.property, .ofDirection o.direction)
  ids : s.terms.map (·.id) = List.range' 1 s.terms.length
  found : ∀ t ∈ s.terms, s.target.findProperty? t.property.name = some t.property

section Terms

variable {target : DataClass} {key : ShuffleKey}

theorem ids_terms (target : DataClass) (key : ShuffleKey) :
    (terms target key).map (·.id) = List.range' 1 (terms target key).length := by
  rw [terms, List.map_map, List.length_map, List.length_zipIdx, ← List.zipIdx_map_snd]
  rfl

/-- The properties of the terms with their arrangements, without their numbers. -/
theorem map_terms (target : DataClass) (key : ShuffleKey) :
    (terms target key).map (fun t => (t.property, t.arrangement)) =
      (wanted key).filterMap fun (n, arrangement) =>
        (target.findProperty? n).map (·, arrangement) := by
  rw [terms, List.map_map]
  exact List.zipIdx_map_fst 1 _

theorem findProperty?_of_mem_terms {t : Term} (ht : t ∈ terms target key) :
    target.findProperty? t.property.name = some t.property := by
  have hmem : (t.property, t.arrangement) ∈
      (terms target key).map fun t => (t.property, t.arrangement) := List.mem_map.2 ⟨t, ht, rfl⟩
  rw [map_terms] at hmem
  obtain ⟨⟨n, arrangement⟩, -, hfound⟩ := List.mem_filterMap.1 hmem
  obtain ⟨p, hp, heq⟩ := Option.map_eq_some_iff.1 hfound
  obtain ⟨rfl, -⟩ := Prod.mk.inj heq
  rwa [DataClass.name_of_findProperty? hp]

/-- Where the class has all properties, there is a term for each name of the key. -/
theorem names_terms (h : unknownNames target key = []) :
    (terms target key).map (fun t => (t.property.name, t.arrangement)) = wanted key := by
  have hnames : (terms target key).map (fun t => (t.property.name, t.arrangement)) =
      ((terms target key).map fun t => (t.property, t.arrangement)).map
        fun (p, arrangement) => (p.name, arrangement) := by
    rw [List.map_map]
    rfl
  rw [hnames, map_terms, List.map_filterMap]
  refine (List.filterMap_congr fun pair hpair => ?_).trans List.filterMap_some
  obtain ⟨n, arrangement⟩ := pair
  have hknown := List.filter_eq_nil_iff.1 h n (List.mem_map.2 ⟨_, hpair, rfl⟩)
  obtain ⟨p, hp⟩ := Option.ne_none_iff_exists'.1 (by simpa using hknown)
  simp only [hp, Option.map_some, DataClass.name_of_findProperty? hp]

end Terms

/-! ## One input -/

variable {g : FlowGraph} {processors : ProcessorRegistry} {classes : DataClassRegistry} {i : Nat}
  {e : ElementId} {p : Port} {s : Segment}

/-- An input has a segment if it has a key, and both its classes are known, and the one that the
key is about has all properties that it names. -/
theorem resolvePort_ok_iff : resolvePort g classes i e p = .ok s ↔
    ∃ key source target, p.key = some key ∧ classes.find? (sourceType g p) = some source ∧
      classes.find? p.type = some target ∧ unknownNames target key = [] ∧
      s = { elementIndex := i, portIndex := 0, element := e, port := p.id, source, target,
            terms := terms target key } := by
  constructor
  · fun_cases resolvePort g classes i e p with
    | case5 key hkey _ source target htarget hsource hnames =>
      intro h
      exact ⟨key, source, target, hkey, hsource, htarget, hnames, (Except.ok.inj h).symm⟩
    | _ =>
      intro h
      cases h
  · rintro ⟨key, source, target, hkey, hsource, htarget, hnames, rfl⟩
    simp only [resolvePort, hkey, hsource, htarget, hnames]

theorem eq_ok_of_segmentOf? {result : Except (List ShuffleFault) Segment}
    (h : segmentOf? result = some s) : result = .ok s := by
  cases result with
  | ok s' => exact congrArg Except.ok (Option.some.inj h)
  | error fs => cases h

theorem placeOf_of_ok (h : resolvePort g classes i e p = .ok s) : placeOf s = ⟨i, e, p.id⟩ := by
  obtain ⟨_, _, _, -, -, -, -, rfl⟩ := resolvePort_ok_iff.1 h
  rfl

theorem isResolved_of_ok (h : resolvePort g classes i e p = .ok s) : IsResolved classes p s := by
  obtain ⟨key, source, target, hkey, -, htarget, hnames, rfl⟩ := resolvePort_ok_iff.1 h
  exact ⟨htarget, ⟨key, hkey, names_terms hnames⟩, ids_terms target key,
    fun _ ht => findProperty?_of_mem_terms ht⟩

theorem label_of_mem_faultsOf {f : ShuffleFault}
    (hf : f ∈ faultsOf (resolvePort g classes i e p)) : f.label? = some (g.portLabel p.id) := by
  revert hf
  fun_cases resolvePort g classes i e p with
  | case6 =>
    intro hf
    obtain ⟨n, -, rfl⟩ := List.mem_map.1 hf
    rfl
  | case5 =>
    intro hf
    cases hf
  | case2 =>
    intro hf
    rcases List.mem_cons.1 hf with rfl | hf
    · rfl
    · rw [List.mem_singleton.1 hf]
      rfl
  | _ =>
    intro hf
    rw [List.mem_singleton.1 hf]
    rfl

theorem groupingFault?_eq_none_iff {first : Segment} :
    groupingFault? g first s = none ↔ s.groupingTypes = first.groupingTypes := by
  rw [groupingFault?]
  split
  case isTrue heq => simp [heq]
  case isFalse hne =>
    split <;> simp [hne]

theorem label_of_groupingFault? {first : Segment} {f : ShuffleFault}
    (hf : groupingFault? g first s = some f) : f.label? = some (g.portLabel s.port) := by
  rw [groupingFault?] at hf
  split at hf
  · cases hf
  · split at hf <;>
    · obtain rfl := Option.some.inj hf
      rfl

/-! ## The inputs of one element -/

/-- An element that records can be shuffled into. -/
def IsRendezvous (processors : ProcessorRegistry) (e : Element) : Prop :=
  ∃ r, ProcessorRegistry.resolve? processors e = some r ∧ r.kind = .rendezvous

theorem isRendezvous_iff {e : Element} : IsRendezvous processors e ↔
    (ProcessorRegistry.resolve? processors e).any (·.kind == .rendezvous) = true := by
  simp [IsRendezvous, Option.any_eq_true]

/-- How a segment differs from the first one of its element, if there is one. -/
def mismatch? (g : FlowGraph) (first : Option Segment) (s : Segment) : Option ShuffleFault :=
  first.bind fun first => groupingFault? g first s

theorem agree_eq (g : FlowGraph) (segments : List Segment) : agree g segments =
    (segments.filter fun s => (mismatch? g segments.head? s).isNone,
      segments.filterMap (mismatch? g segments.head?)) := by
  cases segments with
  | nil => rfl
  | cons first rest =>
    have hself : mismatch? g (some first) first = none := groupingFault?_eq_none_iff.2 rfl
    rw [agree, List.head?_cons, List.filter_cons_of_pos (by rw [hself]; rfl),
      List.filterMap_cons_none hself]
    rfl

section Inputs

variable {e : Element}

def first? (g : FlowGraph) (classes : DataClassRegistry) (i : Nat) (e : Element) :
    Option Segment :=
  ((e.inputs.map (resolvePort g classes i e.id)).filterMap segmentOf?).head?

/-- The segment of an input, unless it groups otherwise than the first one. -/
def kept? (g : FlowGraph) (classes : DataClassRegistry) (i : Nat) (e : Element) (p : Port) :
    Option Segment :=
  (segmentOf? (resolvePort g classes i e.id p)).filter fun s =>
    (mismatch? g (first? g classes i e) s).isNone

/-- What stands against an input. -/
def inputFaults (g : FlowGraph) (classes : DataClassRegistry) (i : Nat) (e : Element) (p : Port) :
    List ShuffleFault :=
  faultsOf (resolvePort g classes i e.id p) ++
    ((segmentOf? (resolvePort g classes i e.id p)).bind (mismatch? g (first? g classes i e))).toList

/-- An element keeps the segments of its inputs in their order, and reports all that stands against
the others. -/
theorem resolveElement_accounts (g : FlowGraph) (classes : DataClassRegistry) (i : Nat)
    (h : IsRendezvous processors e) :
    (resolveElement g processors classes i e).1 = e.inputs.filterMap (kept? g classes i e) ∧
      (resolveElement g processors classes i e).2.Perm
        (e.inputs.flatMap (inputFaults g classes i e)) := by
  rw [resolveElement_eq, if_pos (isRendezvous_iff.1 h)]
  dsimp only
  rw [agree_eq]
  constructor
  · rw [List.filter_filterMap, List.filterMap_map]
    rfl
  · have hmismatches :
        ((e.inputs.map (resolvePort g classes i e.id)).filterMap segmentOf?).filterMap
          (mismatch? g (first? g classes i e)) = e.inputs.flatMap fun p =>
          ((segmentOf? (resolvePort g classes i e.id p)).bind
            (mismatch? g (first? g classes i e))).toList := by
      rw [List.filterMap_filterMap, List.filterMap_map, List.filterMap_eq_flatMap_toList]
      rfl
    show (_ ++ List.filterMap (mismatch? g (first? g classes i e)) _).Perm _
    rw [hmismatches, List.flatMap_map]
    exact List.flatMap_append_perm _ _ _

/-- An input has a segment and no faults, or faults and no segment. -/
theorem input_accounted (g : FlowGraph) (classes : DataClassRegistry) (i : Nat) (e : Element)
    (p : Port) : (inputFaults g classes i e p = [] ∧ ∃ s, kept? g classes i e p = some s) ∨
      (inputFaults g classes i e p ≠ [] ∧ kept? g classes i e p = none) := by
  rw [inputFaults, kept?]
  rcases resolvePort_spec g classes i e.id p with ⟨s, hs, -⟩ | hfaults
  · rw [hs, faultsOf, segmentOf?, Option.bind_some]
    cases hm : mismatch? g (first? g classes i e) s with
    | none => exact .inl ⟨rfl, s, by simp [hm]⟩
    | some f => exact .inr ⟨by simp, by simp [hm]⟩
  · refine .inr ⟨by simp [hfaults], ?_⟩
    cases hr : resolvePort g classes i e.id p with
    | ok s =>
      rw [hr] at hfaults
      exact absurd rfl hfaults
    | error fs => rfl

/-- A segment that is kept is that of its input, and groups like the first one. -/
theorem kept?_spec {p : Port} {s : Segment} (hs : kept? g classes i e p = some s) :
    resolvePort g classes i e.id p = .ok s ∧
      ∀ first ∈ first? g classes i e, s.groupingTypes = first.groupingTypes := by
  obtain ⟨hsegment, hnone⟩ := Option.filter_eq_some_iff.1 hs
  refine ⟨eq_ok_of_segmentOf? hsegment, fun first hfirst => ?_⟩
  rw [Option.mem_def.1 hfirst, mismatch?, Option.bind_some, Option.isNone_iff_eq_none] at hnone
  exact groupingFault?_eq_none_iff.1 hnone

theorem exists_first {p : Port} {s : Segment} (hp : p ∈ e.inputs)
    (hs : resolvePort g classes i e.id p = .ok s) : ∃ first, first? g classes i e = some first := by
  have hmem : s ∈ (e.inputs.map (resolvePort g classes i e.id)).filterMap segmentOf? :=
    List.mem_filterMap.2 ⟨_, List.mem_map_of_mem hp, by rw [hs, segmentOf?]⟩
  exact Option.isSome_iff_exists.1 (List.isSome_head?.2 (List.ne_nil_of_mem hmem))

theorem label_of_mem_inputFaults {p : Port} {f : ShuffleFault}
    (hf : f ∈ inputFaults g classes i e p) : f.label? = some (g.portLabel p.id) := by
  rcases List.mem_append.1 hf with hf | hf
  · exact label_of_mem_faultsOf hf
  · obtain ⟨s, hs, hm⟩ := Option.bind_eq_some_iff.1 (Option.mem_toList.1 hf)
    obtain ⟨first, -, hfault⟩ := Option.bind_eq_some_iff.1 hm
    have hport : s.port = p.id :=
      congrArg Place.port (placeOf_of_ok (eq_ok_of_segmentOf? hs))
    rw [label_of_groupingFault? hfault, hport]

end Inputs

end Shuffle
end FlowPlan
