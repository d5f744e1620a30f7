import FlowPlan.Proofs.Segments

/-!
The shuffle of a stage accounts for all inputs of its reduce side.

Several things can go wrong with several elements at once, and each takes its segments out of the
model.  `plan_accounts_for_inputs` says that the numbers stay dense all the same, that what is left
is right, and that nothing is left out in silence: each input has a segment or is to blame for some
of the diagnostics.
-/

namespace FlowPlan

/-! ## Lists -/

section Lists

variable {α β : Type} {xs : List α}

theorem filterMap_sublist_map {f : α → Option β} {f' : α → β}
    (h : ∀ x ∈ xs, ∀ y ∈ f x, y = f' x) : (xs.filterMap f).Sublist (xs.map f') := by
  induction xs with
  | nil => exact .slnil
  | cons x xs ih =>
    have hrest := ih fun y hy => h y (List.mem_cons_of_mem x hy)
    rw [List.map_cons]
    cases hx : f x with
    | none => rw [List.filterMap_cons_none hx]; exact hrest.cons _
    | some y =>
      rw [List.filterMap_cons_some hx, h x List.mem_cons_self y hx]
      exact hrest.cons_cons _

/-- What one item contributes can be told from what the others do. -/
theorem filter_flatMap_eq {f : α → List β} {a : α} {q : β → Bool} (hn : xs.Nodup) (ha : a ∈ xs)
    (hin : ∀ y ∈ f a, q y = true) (hout : ∀ x ∈ xs, x ≠ a → ∀ y ∈ f x, q y = false) :
    (xs.flatMap f).filter q = f a := by
  have hnil : ∀ ys : List α, (∀ x ∈ ys, x ∈ xs) → a ∉ ys → (ys.flatMap f).filter q = [] := by
    intro ys hys hnot
    refine List.filter_eq_nil_iff.2 fun y hy => ?_
    obtain ⟨x, hx, hyx⟩ := List.mem_flatMap.1 hy
    have hne : x ≠ a := fun heq => hnot (heq ▸ hx)
    rw [hout x (hys x hx) hne y hyx]
    exact Bool.false_ne_true
  obtain ⟨before, behind, rfl⟩ := List.append_of_mem ha
  obtain ⟨-, hbehind, hapart⟩ := List.nodup_append.1 hn
  rw [List.flatMap_append, List.flatMap_cons, List.filter_append, List.filter_append,
    hnil before (fun x hx => List.mem_append_left _ hx)
      (fun hmem => hapart a hmem a List.mem_cons_self rfl),
    hnil behind (fun x hx => List.mem_append_right _ (List.mem_cons_of_mem a hx))
      (List.nodup_cons.1 hbehind).1,
    List.filter_eq_self.2 hin, List.nil_append, List.append_nil]

end Lists

namespace Shuffle

/-! ## What the shuffle of a stage says -/

/-- The diagnostics about an element. -/
def about (diagnostics : List Diagnostic) (e : Element) : List Diagnostic :=
  diagnostics.filter (·.element == some { id := e.id, name := e.name })

/-- The diagnostics about an element are the faults of its inputs.  Each input has one segment and
no faults, or no segment and faults that name it. -/
def AccountsFor (g : FlowGraph) (m : ShuffleModel) (diagnostics : List Diagnostic) (e : Element) :
    Prop :=
  ∃ faults : Port → List ShuffleFault,
    (about diagnostics e).Perm
      ((e.inputs.flatMap faults).map (·.diagnostic { id := e.id, name := e.name })) ∧
    ∀ p ∈ e.inputs,
      (∀ f ∈ faults p, f.label? = some (g.portLabel p.id) ∧ f.code ∈ ShuffleFault.inputCodes) ∧
      ((faults p = [] ∧ ∃ s, m.segments.filter (·.port == p.id) = [s] ∧ s.element = e.id) ∨
        (faults p ≠ [] ∧ m.segments.filter (·.port == p.id) = []))

/-- The model of a shuffle and the diagnostics that come with it. -/
structure IsShuffleOf (sg : StageGraph) (stage : Stage) (processors : ProcessorRegistry)
    (classes : DataClassRegistry) (m : ShuffleModel) (diagnostics : List Diagnostic) : Prop where
  numbered : m.segments.map (·.portIndex) = List.range' 1 m.segments.length
  placed : ∀ s ∈ m.segments, ∃ e ∈ sg.flow.elements, IsRendezvous processors e ∧
    s.element = e.id ∧ (rendezvousElements sg stage)[s.elementIndex]? = some e.id ∧
      ∃ p ∈ e.inputs, s.port = p.id ∧ IsResolved classes p s
  alike : ∀ s ∈ m.segments, ∀ t ∈ m.segments, s.element = t.element →
    s.groupingTypes = t.groupingTypes
  accounted : ∀ e ∈ sg.flow.elements, e.id ∈ rendezvousElements sg stage →
    IsRendezvous processors e → AccountsFor sg.flow m diagnostics e ∧
      ((m.segmentsOf e.id).map (·.port)).Sublist e.inputIds
  skipped : ∀ e ∈ sg.flow.elements, e.id ∈ rendezvousElements sg stage →
    ¬ IsRendezvous processors e → m.segmentsOf e.id = [] ∧
      ∃ d, about diagnostics e = [d] ∧ d.code = some .noRendezvous
  attributed : ∀ d ∈ diagnostics, ∃ e ∈ sg.flow.elements, e.id ∈ rendezvousElements sg stage ∧
    d.element = some { id := e.id, name := e.name }
  partly : m.isPartial = true ↔ diagnostics ≠ []

/-! ## The elements in turn -/

section Model

variable {sg : StageGraph} {stage : Stage} {processors : ProcessorRegistry}
  {classes : DataClassRegistry} {i : Nat} {e : Element} {s : Segment} {m : ShuffleModel}

/-- The segments of a stage before they are numbered. -/
def unnumbered (sg : StageGraph) (stage : Stage) (processors : ProcessorRegistry)
    (classes : DataClassRegistry) : List Segment :=
  (entered sg stage).zipIdx.flatMap fun (e, i) =>
    (resolveElement sg.flow processors classes i e).1

def diagnosticsOf (sg : StageGraph) (stage : Stage) (processors : ProcessorRegistry)
    (classes : DataClassRegistry) : List Diagnostic :=
  (entered sg stage).zipIdx.flatMap fun (e, i) =>
    (resolveElement sg.flow processors classes i e).2.map
      (·.diagnostic { id := e.id, name := e.name })

/-- The model of a stage with a reduce side. -/
def modelOf (sg : StageGraph) (stage : Stage) (processors : ProcessorRegistry)
    (classes : DataClassRegistry) : ShuffleModel :=
  { stage := stage.number,
    segments := ((unnumbered sg stage processors classes).zipIdx 1).map fun (s, i) =>
      { s with portIndex := i },
    isPartial := !(diagnosticsOf sg stage processors classes).isEmpty }

theorem analyzeShuffle_eq (hreduce : stage.hasReduce = true) :
    analyzeShuffle sg stage processors classes
      = (some (modelOf sg stage processors classes),
        diagnosticsOf sg stage processors classes) := by
  rw [analyzeShuffle_of_hasReduce hreduce]
  simp only [resolutions, List.flatMap_map]
  rfl

theorem analyzeShuffle_eq_none_iff :
    (analyzeShuffle sg stage processors classes).1 = none ↔ stage.reduceBlocks = [] := by
  by_cases hreduce : stage.hasReduce = true
  · rw [analyzeShuffle_eq hreduce]
    simpa [Stage.hasReduce] using hreduce
  · rw [analyzeShuffle, if_neg hreduce]
    simpa [Stage.hasReduce] using hreduce

theorem eq_of_analyzeShuffle (hm : (analyzeShuffle sg stage processors classes).1 = some m) :
    m = modelOf sg stage processors classes ∧
      (analyzeShuffle sg stage processors classes).2
        = diagnosticsOf sg stage processors classes := by
  have hreduce : stage.hasReduce = true := by
    by_contra hno
    rw [analyzeShuffle, if_neg hno] at hm
    cases hm
  rw [analyzeShuffle_eq hreduce] at hm ⊢
  exact ⟨(Option.some.inj hm).symm, rfl⟩

/-- The places of the segments of an element are among those of its inputs, in their order. -/
theorem places_sublist (g : FlowGraph) (processors : ProcessorRegistry)
    (classes : DataClassRegistry) (i : Nat) (e : Element) :
    ((resolveElement g processors classes i e).1.map placeOf).Sublist
      (e.inputs.map fun p => ⟨i, e.id, p.id⟩) := by
  by_cases h : IsRendezvous processors e
  · rw [(resolveElement_accounts g classes i h).1, List.map_filterMap]
    refine filterMap_sublist_map fun p _ place hplace => ?_
    obtain ⟨s, hs, rfl⟩ := Option.map_eq_some_iff.1 hplace
    exact placeOf_of_ok (kept?_spec hs).1
  · rw [resolveElement_eq, if_neg fun hkind => h (isRendezvous_iff.2 hkind)]
    exact List.nil_sublist _

theorem element_of_mem_resolveElement {g : FlowGraph} {s : Segment}
    (hs : s ∈ (resolveElement g processors classes i e).1) : s.element = e.id := by
  obtain ⟨p, -, hplace⟩ := List.mem_map.1
    ((places_sublist g processors classes i e).subset (List.mem_map_of_mem hs))
  exact (congrArg Place.element hplace).symm

theorem placeOf_modelOf : (modelOf sg stage processors classes).segments.map placeOf
    = (unnumbered sg stage processors classes).map placeOf := placeOf_numbered _

theorem places_modelOf_sublist :
    ((modelOf sg stage processors classes).segments.map placeOf).Sublist (placesOf sg stage) := by
  rw [placeOf_modelOf, unnumbered, List.map_flatMap, placesOf]
  exact List.Sublist.flatMap_right _ fun place _ => places_sublist _ _ _ _ _

theorem mem_modelOf {s : Segment} (hs : s ∈ (modelOf sg stage processors classes).segments) :
    ∃ e i s', (e, i) ∈ (entered sg stage).zipIdx ∧
      s' ∈ (resolveElement sg.flow processors classes i e).1 ∧
      s = { s' with portIndex := s.portIndex } := by
  obtain ⟨⟨s', n⟩, hs', rfl⟩ := List.mem_map.1 hs
  obtain ⟨⟨e, i⟩, hplace, hmem⟩ := List.mem_flatMap.1 (List.fst_mem_of_mem_zipIdx hs')
  exact ⟨e, i, s', hplace, hmem, rfl⟩

/-- A segment of the model is that of an input which its element keeps. -/
theorem kept_of_mem_modelOf {s : Segment}
    (hs : s ∈ (modelOf sg stage processors classes).segments) :
    ∃ e i, (e, i) ∈ (entered sg stage).zipIdx ∧ IsRendezvous processors e ∧ ∃ p ∈ e.inputs,
      placeOf s = ⟨i, e.id, p.id⟩ ∧ ∃ s', kept? sg.flow classes i e p = some s' ∧
        s = { s' with portIndex := s.portIndex } := by
  obtain ⟨e, i, s', he, hs', heq⟩ := mem_modelOf hs
  by_cases h : IsRendezvous processors e
  · rw [(resolveElement_accounts sg.flow classes i h).1] at hs'
    obtain ⟨p, hp, hkept⟩ := List.mem_filterMap.1 hs'
    have hplace : placeOf s = placeOf s' := by rw [heq]; rfl
    rw [placeOf_of_ok (kept?_spec hkept).1] at hplace
    exact ⟨e, i, he, h, p, hp, hplace, s', hkept, heq⟩
  · rw [resolveElement_eq, if_neg fun hkind => h (isRendezvous_iff.2 hkind)] at hs'
    cases hs'

end Model

/-! ## Elements of a plan -/

section Plan

open StageGraph FlowGraph

variable {g : FlowGraph} {stage : Stage} {processors : ProcessorRegistry}
  {classes : DataClassRegistry} {i j : Nat} {e e' : Element} (h : g.Coherent)

include h

theorem mem_entered_iff : e ∈ entered (plan g).1 stage ↔
    e ∈ g.elements ∧ e.id ∈ rendezvousElements (plan g).1 stage := by
  rw [← map_id_entered h]
  constructor
  · exact fun he => ⟨entered_subset he, List.mem_map_of_mem he⟩
  · intro hmem
    obtain ⟨hg, hid⟩ := hmem
    obtain ⟨e', he', heq⟩ := List.mem_map.1 hid
    rwa [← h.eq_of_id_eq (entered_subset he') hg heq]

theorem zipIdx_entered_nodup : (entered (plan g).1 stage).zipIdx.Nodup :=
  List.Nodup.of_map Prod.fst (by rw [List.zipIdx_map_fst]; exact entered_nodup h)

/-- Elements of one number have one position. -/
theorem eq_of_mem_zipIdx (he : (e, i) ∈ (entered (plan g).1 stage).zipIdx)
    (he' : (e', j) ∈ (entered (plan g).1 stage).zipIdx) (hid : e.id = e'.id) :
    (e, i) = (e', j) := by
  have hi := List.mk_mem_zipIdx_iff_getElem?.1 he
  have hj := List.mk_mem_zipIdx_iff_getElem?.1 he'
  obtain rfl := h.eq_of_id_eq (entered_subset (List.mem_of_getElem? hi))
    (entered_subset (List.mem_of_getElem? hj)) hid
  rw [(List.getElem?_inj (List.getElem?_eq_some_iff.1 hi).1 (entered_nodup h)).1
    (hi.trans hj.symm)]

theorem element_of_mem_zipIdx (he : (e, i) ∈ (entered (plan g).1 stage).zipIdx) :
    e ∈ g.elements ∧ e.id ∈ rendezvousElements (plan g).1 stage ∧
      (rendezvousElements (plan g).1 stage)[i]? = some e.id := by
  have hi := List.mk_mem_zipIdx_iff_getElem?.1 he
  obtain ⟨hg, hid⟩ := (mem_entered_iff h).1 (List.mem_of_getElem? hi)
  refine ⟨hg, hid, ?_⟩
  rw [← map_id_entered h, List.getElem?_map, hi, Option.map_some]

theorem about_eq (he : (e, i) ∈ (entered (plan g).1 stage).zipIdx) :
    about (diagnosticsOf (plan g).1 stage processors classes) e
      = (resolveElement g processors classes i e).2.map
        (·.diagnostic { id := e.id, name := e.name }) := by
  refine filter_flatMap_eq (zipIdx_entered_nodup h) he (fun d hd => ?_) fun x hx hne d hd => ?_
  · obtain ⟨f, -, rfl⟩ := List.mem_map.1 hd
    exact beq_self_eq_true _
  · obtain ⟨f, -, rfl⟩ := List.mem_map.1 hd
    have hid : x.1.id ≠ e.id := fun heq => hne (eq_of_mem_zipIdx h hx he heq)
    simpa [ShuffleFault.diagnostic, Diagnostic.errorAt] using fun heq => absurd heq hid

/-- The segments of an element in the model are those that it keeps, in their order. -/
theorem places_segmentsOf (he : (e, i) ∈ (entered (plan g).1 stage).zipIdx) :
    ((modelOf (plan g).1 stage processors classes).segmentsOf e.id).map placeOf
      = (resolveElement g processors classes i e).1.map placeOf := by
  rw [ShuffleModel.segmentsOf]
  have hfilter : ∀ segments : List Segment,
      (segments.filter (·.element == e.id)).map placeOf
        = (segments.map placeOf).filter (·.element == e.id) := by
    intro segments
    rw [List.filter_map]
    rfl
  rw [hfilter, placeOf_modelOf, ← hfilter]
  refine congrArg (List.map placeOf)
    (filter_flatMap_eq (zipIdx_entered_nodup h) he (fun s hs => ?_) fun x hx hne s hs => ?_)
  · exact beq_iff_eq.2 (element_of_mem_resolveElement hs)
  · have hid : x.1.id ≠ e.id := fun heq => hne (eq_of_mem_zipIdx h hx he heq)
    rw [element_of_mem_resolveElement hs]
    exact beq_eq_false_iff_ne.2 hid

theorem ports_modelOf_nodup :
    ((modelOf (plan g).1 stage processors classes).segments.map (·.port)).Nodup := by
  have hports := (@places_modelOf_sublist (plan g).1 stage processors classes).map (·.port)
  rw [List.map_map, map_port_placesOf] at hports
  exact (inputs_entered_nodup h).sublist hports

theorem accountsFor_modelOf (he : (e, i) ∈ (entered (plan g).1 stage).zipIdx)
    (hr : IsRendezvous processors e) :
    AccountsFor g (modelOf (plan g).1 stage processors classes)
      (diagnosticsOf (plan g).1 stage processors classes) e := by
  obtain ⟨hkept, hfaults⟩ := resolveElement_accounts g classes i hr
  refine ⟨inputFaults g classes i e, ?_, fun p hp => ⟨fun f hf => ?_, ?_⟩⟩
  · rw [about_eq h he]
    exact hfaults.map _
  · have hlabel := label_of_mem_inputFaults hf
    exact ⟨hlabel, ShuffleFault.code_mem_inputCodes hlabel⟩
  · rcases input_accounted g classes i e p with ⟨hnone, s', hs'⟩ | ⟨hsome, hnone⟩
    · have hmem : placeOf s' ∈
          ((modelOf (plan g).1 stage processors classes).segmentsOf e.id).map placeOf := by
        rw [places_segmentsOf h he, hkept]
        exact List.mem_map_of_mem (List.mem_filterMap.2 ⟨p, hp, hs'⟩)
      obtain ⟨s, hs, hplace⟩ := List.mem_map.1 hmem
      rw [placeOf_of_ok (kept?_spec hs').1] at hplace
      obtain ⟨-, helement, hport⟩ := Place.mk.inj hplace
      refine .inl ⟨hnone, s, ?_, helement⟩
      rw [← hport]
      exact filter_port_eq (ports_modelOf_nodup h) (List.mem_of_mem_filter hs)
    · refine .inr ⟨hsome, List.filter_eq_nil_iff.2 fun s hs hport => ?_⟩
      obtain ⟨x, j, hx, -, q, hq, hplace, s', hs', -⟩ := kept_of_mem_modelOf hs
      have hpq : q.id = p.id := (congrArg Place.port hplace).symm.trans (beq_iff_eq.1 hport)
      -- The port is one of this element, so the segment would be that of this input.
      have heg := (element_of_mem_zipIdx h he).1
      obtain rfl : x = e := h.eq_of_input (element_of_mem_zipIdx h hx).1 heg
        (List.mem_map_of_mem hq) (hpq ▸ List.mem_map_of_mem hp)
      obtain ⟨-, rfl⟩ := Prod.mk.inj (eq_of_mem_zipIdx h hx he rfl)
      have hn := h.portIds_nodup heg
      rw [Element.portIds_eq] at hn
      obtain rfl := List.inj_on_of_nodup_map (List.nodup_append.1 hn).1 hq hp hpq
      cases hnone.symm.trans hs'

theorem ports_segmentsOf_sublist (he : (e, i) ∈ (entered (plan g).1 stage).zipIdx) :
    (((modelOf (plan g).1 stage processors classes).segmentsOf e.id).map (·.port)).Sublist
      e.inputIds := by
  have hports := (places_sublist g processors classes i e).map (·.port)
  rw [← places_segmentsOf h he, List.map_map, List.map_map] at hports
  exact hports

/-- Segments of one element group alike, because each groups like the first one. -/
theorem groupingTypes_modelOf {s t : Segment}
    (hs : s ∈ (modelOf (plan g).1 stage processors classes).segments)
    (ht : t ∈ (modelOf (plan g).1 stage processors classes).segments)
    (hsame : s.element = t.element) : s.groupingTypes = t.groupingTypes := by
  obtain ⟨x, j, hx, -, p, hp, hsplace, s', hs', hseq⟩ := kept_of_mem_modelOf hs
  obtain ⟨y, k, hy, -, q, hq, htplace, t', ht', hteq⟩ := kept_of_mem_modelOf ht
  obtain ⟨hsok, hsfirst⟩ := kept?_spec hs'
  obtain ⟨-, htfirst⟩ := kept?_spec ht'
  have hsx : s.element = x.id := congrArg Place.element hsplace
  have hty : t.element = y.id := congrArg Place.element htplace
  obtain ⟨rfl, rfl⟩ := Prod.mk.inj (eq_of_mem_zipIdx h hx hy (hsx.symm.trans (hsame.trans hty)))
  obtain ⟨first, hfirst⟩ := exists_first hp hsok
  rw [hseq, hteq]
  exact (hsfirst first hfirst).trans (htfirst first hfirst).symm

theorem placed_modelOf {s : Segment}
    (hs : s ∈ (modelOf (plan g).1 stage processors classes).segments) :
    ∃ e ∈ g.elements, IsRendezvous processors e ∧ s.element = e.id ∧
      (rendezvousElements (plan g).1 stage)[s.elementIndex]? = some e.id ∧
        ∃ p ∈ e.inputs, s.port = p.id ∧ IsResolved classes p s := by
  obtain ⟨e, i, he, hr, p, hp, hplace, s', hs', heq⟩ := kept_of_mem_modelOf hs
  obtain ⟨heg, -, hposition⟩ := element_of_mem_zipIdx h he
  obtain ⟨hindex, helement, hport⟩ := Place.mk.inj hplace
  have hresolved : IsResolved classes p s := by
    obtain ⟨htarget, hterms, hids, hfound⟩ := isResolved_of_ok (kept?_spec hs').1
    rw [heq]
    exact ⟨htarget, hterms, hids, hfound⟩
  exact ⟨e, heg, hr, helement, hindex ▸ hposition, p, hp, hport, hresolved⟩

theorem isShuffleOf_modelOf (stage : Stage) (processors : ProcessorRegistry)
    (classes : DataClassRegistry) :
    IsShuffleOf (plan g).1 stage processors classes (modelOf (plan g).1 stage processors classes)
      (diagnosticsOf (plan g).1 stage processors classes) where
  numbered := by
    rw [modelOf, List.map_map, List.length_map, List.length_zipIdx, ← List.zipIdx_map_snd]
    rfl
  placed _ hs := placed_modelOf h hs
  alike _ hs _ ht := groupingTypes_modelOf h hs ht
  accounted e he hid hr := by
    obtain ⟨i, hi⟩ := List.getElem?_of_mem ((mem_entered_iff h).2 ⟨he, hid⟩)
    have hplace := List.mk_mem_zipIdx_iff_getElem?.2 hi
    exact ⟨accountsFor_modelOf h hplace hr, ports_segmentsOf_sublist h hplace⟩
  skipped e he hid hr := by
    obtain ⟨i, hi⟩ := List.getElem?_of_mem ((mem_entered_iff h).2 ⟨he, hid⟩)
    have hplace := List.mk_mem_zipIdx_iff_getElem?.2 hi
    have hnone : resolveElement g processors classes i e = ([], [.noRendezvous e.workKind]) := by
      rw [resolveElement_eq, if_neg fun hkind => hr (isRendezvous_iff.2 hkind)]
    refine ⟨?_, (ShuffleFault.noRendezvous e.workKind).diagnostic { id := e.id, name := e.name },
      ?_, rfl⟩
    · rw [← List.map_eq_nil_iff, places_segmentsOf h hplace, hnone, List.map_nil]
    · rw [about_eq h hplace, hnone, List.map_singleton]
  attributed d hd := by
    obtain ⟨⟨e, i⟩, hplace, hmem⟩ := List.mem_flatMap.1 hd
    obtain ⟨f, -, rfl⟩ := List.mem_map.1 hmem
    obtain ⟨heg, hid, -⟩ := element_of_mem_zipIdx h hplace
    exact ⟨e, heg, hid, rfl⟩
  partly := by simp [modelOf]

end Plan

open StageGraph FlowGraph

/-- A stage has a shuffle if it has a reduce side.  The shuffle and the diagnostics that come with
it account for all inputs of the elements that the reduce side is entered by. -/
theorem plan_accounts_for_inputs {g : FlowGraph} (h : g.WellFormed) (stage : Stage)
    (processors : ProcessorRegistry) (classes : DataClassRegistry) :
    ((analyzeShuffle (plan g).1 stage processors classes).1 = none ↔ stage.reduceBlocks = []) ∧
      ∀ m, (analyzeShuffle (plan g).1 stage processors classes).1 = some m →
        IsShuffleOf (plan g).1 stage processors classes m
          (analyzeShuffle (plan g).1 stage processors classes).2 := by
  refine ⟨analyzeShuffle_eq_none_iff, fun m hm => ?_⟩
  obtain ⟨rfl, hdiagnostics⟩ := eq_of_analyzeShuffle hm
  rw [hdiagnostics]
  exact isShuffleOf_modelOf h.coherent stage processors classes

/-- Records are split three ways: into a join with an input that names no key, into a merge whose
inputs are grouped by different types, and into an operator of a kind that takes no groups. -/
def mixed : FlowGraph :=
  let plain (name : String) : PortDecl := .plain name "Record"
  let keyed (name property : String) : PortDecl :=
    { plain name with key := some ⟨[property], []⟩ }
  let work (name kind : String) (inputs : List PortDecl) (boundary : Boundary) : ElementDecl :=
    .operator name { name, kind, resources := [] } inputs [plain "out"] boundary
  assemble
    [.input "in" "Record", work "clean" "update" [plain "in"] .none,
      work "join" "cogroup" [keyed "left" "key", plain "right"] .shuffle,
      work "merge" "cogroup" [keyed "a" "key", keyed "b" "amount"] .shuffle,
      work "tally" "update" [keyed "in" "key"] .shuffle,
      .output "x" "Record", .output "y" "Record", .output "z" "Record"]
    [(0, 1), (2, 3), (2, 4), (2, 6), (2, 7), (2, 9), (5, 11), (8, 12), (10, 13)]

def cogroupAndUpdate : ProcessorRegistry :=
  Catalog.ofList
    [{ name := "cogroup", kind := .rendezvous }, { name := "update", kind := .linePart }]

def amounts : DataClassRegistry :=
  Catalog.ofList
    [{ name := "Record",
       properties := [{ name := "key", type := .text }, { name := "amount", type := .long }] }]

theorem mixed_stages : (plan mixed).1.stages = [⟨1, [1], [2, 3, 4]⟩] :=
  (stages_of_singleton 1 (by cbv)).trans (by cbv)

/-- Of five inputs two have a segment, and each of the other three a fault of its own kind. -/
theorem mixed_resolutions :
    (resolutions (plan mixed).1 ⟨1, [1], [2, 3, 4]⟩ cogroupAndUpdate amounts).map
      (fun (_, segments, faults) => (segments.map (·.port), faults.map (·.code)))
        = [([3], [.missingKey]), ([6], [.groupingMismatch]), ([], [.noRendezvous])] := by
  rw [Compilation.plan_eq]
  cbv

/-- Three failures of three elements, with what is left of the first two. -/
theorem mixed_accounted :
    let shuffle := analyzeShuffle (plan mixed).1 ⟨1, [1], [2, 3, 4]⟩ cogroupAndUpdate amounts
    mixed.WellFormed ∧ (plan mixed).1.stages = [⟨1, [1], [2, 3, 4]⟩] ∧
      (resolutions (plan mixed).1 ⟨1, [1], [2, 3, 4]⟩ cogroupAndUpdate amounts).map
        (fun (_, segments, faults) => (segments.map (·.port), faults.map (·.code)))
          = [([3], [.missingKey]), ([6], [.groupingMismatch]), ([], [.noRendezvous])] ∧
      ∃ m, shuffle.1 = some m ∧
        IsShuffleOf (plan mixed).1 ⟨1, [1], [2, 3, 4]⟩ cogroupAndUpdate amounts m shuffle.2 := by
  have hwf : mixed.WellFormed := assemble_wellFormed _ (by simp)
  obtain ⟨hnone, hmodel⟩ :=
    plan_accounts_for_inputs hwf ⟨1, [1], [2, 3, 4]⟩ cogroupAndUpdate amounts
  obtain ⟨m, hm⟩ := Option.ne_none_iff_exists'.1 (mt hnone.1 (by simp))
  exact ⟨hwf, mixed_stages, mixed_resolutions, m, hm, hmodel m hm⟩

end Shuffle
end FlowPlan
