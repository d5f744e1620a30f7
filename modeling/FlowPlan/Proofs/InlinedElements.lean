import FlowPlan.Proofs.Declarations
import FlowPlan.Proofs.Sites

/-!
What flattening does to the elements.

A part is replaced by copies of what is in it, and a part in it becomes a part of the graph around,
under a longer name, to be replaced later.  `Replaces` follows the replacements, of any part at any
time: each takes away one part, so they end whatever part is taken next.  `seen` is what an element
in parts is declared as from outside of all of them, and the units of a net are its sites that are
no parts, seen from outside.  Together with what is known about units this gives
`flatten_keeps_elements`.
-/

namespace FlowPlan

/-! ## Lists -/

section Lists

variable {α β γ : Type}

theorem perm_filter_or {p q : α → Bool} {xs : List α}
    (hpq : ∀ x ∈ xs, p x = true → q x = false) :
    (xs.filter fun x => p x || q x).Perm (xs.filter p ++ xs.filter q) := by
  induction xs with
  | nil => exact .nil
  | cons x xs ih =>
    have ih := ih fun y hy => hpq y (List.mem_cons_of_mem x hy)
    have hx := hpq x List.mem_cons_self
    cases hp : p x with
    | true => simpa [List.filter_cons, hp, hx hp] using ih
    | false =>
      cases hq : q x with
      | true =>
        simp only [List.filter_cons, hp, hq, Bool.false_or, if_true, Bool.false_eq_true, if_false]
        exact (ih.cons x).trans List.perm_middle.symm
      | false => simpa [List.filter_cons, hp, hq] using ih

/-- Lists with the same values in some order can be paired so that partners have one value. -/
theorem exists_pairing {f : α → γ} {f' : β → γ} {as : List α} {bs : List β}
    (h : (bs.map f').Perm (as.map f)) : ∃ ps : List (α × β),
      ps.map (·.1) = as ∧ (ps.map (·.2)).Perm bs ∧ ∀ p ∈ ps, f p.1 = f' p.2 := by
  induction as generalizing bs with
  | nil =>
    obtain rfl : bs = [] := List.map_eq_nil_iff.1 (List.perm_nil.1 h)
    exact ⟨[], rfl, .nil, by simp⟩
  | cons a as ih =>
    have hmem : f a ∈ bs.map f' := h.mem_iff.2 List.mem_cons_self
    obtain ⟨b, hb, hba⟩ := List.mem_map.1 hmem
    obtain ⟨before, after, rfl⟩ := List.append_of_mem hb
    have hrest : ((before ++ after).map f').Perm (as.map f) := by
      have hfront : (f' b :: (before ++ after).map f').Perm (f a :: as.map f) :=
        (List.perm_middle.symm.map f').trans h
      rw [hba] at hfront
      exact hfront.cons_inv
    obtain ⟨ps, rfl, hsnd, hps⟩ := ih hrest
    refine ⟨(a, b) :: ps, rfl, (hsnd.cons b).trans List.perm_middle.symm, fun p hp => ?_⟩
    rcases List.mem_cons.1 hp with rfl | hp
    · exact hba.symm
    · exact hps p hp

end Lists

namespace FlowGraph

variable {g inner : FlowGraph} {e : Element}

theorem Declared.of_encloses {k : FlowGraph} {path : List Element} (h : g.Declared)
    (hk : g.Encloses path k) : k.Declared := hk.passes Declared.inner h

/-! ## Counting parts -/

theorem length_flatMap_eq_total {α β : Type} (f : α → List β) (xs : List α) :
    (xs.flatMap f).length = total (xs.map fun x => (f x).length) := by
  induction xs with
  | nil => rfl
  | cons x xs ih => rw [List.flatMap_cons, List.length_append, ih, List.map_cons, total_cons]

theorem total_perm {ms ns : List Nat} (h : ms.Perm ns) : total ms = total ns := by
  induction h with
  | nil => rfl
  | cons n _ ih => rw [total_cons, total_cons, ih]
  | swap m n ns =>
    simp only [total_cons]
    omega
  | trans _ _ ihm ihn => exact ihm.trans ihn

/-- The parts that are counted are the sites that are parts. -/
theorem partCount_eq_length (g : FlowGraph) :
    g.partCount = (g.sites.filter (·.element.isFlowPart)).length := by
  rw [partCount_eq, sites_eq, List.filter_flatMap, length_flatMap_eq_total]
  refine congrArg total (List.map_congr_left fun e he => ?_)
  unfold partsIn sitesIn
  cases hk : e.kind with
  | flowPart inner =>
    have := sizeOf_inner_lt he hk
    have hpart : e.isFlowPart = true := isFlowPart_iff.2 ⟨inner, hk⟩
    simp only [List.filter_cons, hpart, if_true, List.length_cons, List.filter_map,
      List.length_map, partCount_eq_length inner]
    rfl
  | _ => simp [Element.isFlowPart, ElementKind.isFlowPart, hk]
termination_by sizeOf g

/-- Replacing a part takes away this part and no other. -/
theorem partCount_unfold (h : g.Coherent) (he : e ∈ g.elements) (hk : e.kind = .flowPart inner) :
    (g.unfold e inner).partCount + 1 = g.partCount := by
  have hremoved : total (g.elements.map partsIn)
      = partsIn e + total ((g.removeElement e.id).elements.map partsIn) :=
    total_perm ((elements_perm_removeElement h he).map partsIn)
  have hcopies : ∀ pair ∈ g.copies e inner, partsIn pair.2 = partsIn pair.1 := by
    rintro ⟨x, y⟩ hxy
    obtain ⟨-, hy⟩ := decl_of_mem_copiesIn hxy
    have hkind := congrArg ElementDecl.kind (hy.trans (decl_numbered g (copyOf e.name x)).symm)
    have hparts := partsIn_numbered g e.name x
    unfold partsIn at hparts ⊢
    rw [← hparts]
    simp only [show y.kind = (g.numbered (copyOf e.name x)).kind from hkind]
  have hinner : (g.copies e inner).map (fun pair => partsIn pair.2)
      = inner.elements.map partsIn := by
    rw [List.map_congr_left hcopies,
      ← map_fst_copiesIn e.name (g.removeElement e.id) inner.elements, List.map_map]
    rfl
  have hparts : partsIn e = inner.partCount + 1 := by rw [partsIn, hk]
  rw [partCount_eq, partCount_eq, elements_unfold, List.map_append, total_append, hremoved, hparts,
    List.map_map, partCount_eq inner, ← hinner]
  show _ + total ((g.copies e inner).map fun pair => partsIn pair.2) + 1 = _
  omega

/-- Some number of parts replaced one after the other, in any order. -/
inductive Replaces : Nat → FlowGraph → FlowGraph → Prop
  | done (g : FlowGraph) : Replaces 0 g g
  | next {n : Nat} {g inner k : FlowGraph} {e : Element} (he : e ∈ g.elements)
      (hk : e.kind = .flowPart inner) (h : Replaces n (g.unfold e inner) k) : Replaces (n + 1) g k

theorem Replaces.count {n : Nat} {k : FlowGraph} (hr : Replaces n g k) (h : g.WellFormed) :
    n + k.partCount = g.partCount := by
  induction hr with
  | done => exact Nat.zero_add _
  | next he hk _ ih =>
    have hcount := partCount_unfold h.coherent he hk
    have ih := ih (unfold_wellFormed h he hk)
    omega

theorem flatten_replaces (g : FlowGraph) : Replaces g.flatten.2 g g.flatten.1 := by
  rw [flatten]
  split
  case h_1 => exact .done g
  case h_2 e inner heq =>
    obtain ⟨he, hk⟩ := firstPart?_eq_some heq
    exact .next he hk (flatten_replaces (g.unfold e inner))
termination_by g.partCount
decreasing_by exact partCount_unfold_lt he hk

theorem partCount_of_isFlat (h : g.isFlat = true) : g.partCount = 0 := by
  rw [partCount_eq_length, List.length_eq_zero_iff, List.filter_eq_nil_iff]
  intro s hs
  rw [sites_eq, List.mem_flatMap] at hs
  obtain ⟨x, hx, hs⟩ := hs
  have hpart := isFlat_iff.1 h x hx
  rw [sitesIn_of_not_isFlowPart hpart, List.mem_singleton] at hs
  subst hs
  simp [hpart]

theorem count_flatten (h : g.WellFormed) : g.flatten.2 = g.partCount := by
  have hcount := (flatten_replaces g).count h
  rwa [partCount_of_isFlat (flatten_isFlat g), Nat.add_zero] at hcount

end FlowGraph

/-! ## Seen from outside -/

namespace ElementDecl

/-- What is declared in a part is declared outside under another name; an input or an output becomes
an identity of its type. -/
inductive Outside (name : String) : ElementDecl → ElementDecl → Prop
  | input (old type : String) : Outside name (.input old type) (.pseudo name type .none)
  | output (old type : String) : Outside name (.output old type) (.pseudo name type .none)
  | other {d : ElementDecl} (hend : d.isEnd = false) : Outside name d { d with name }

variable {d d' : ElementDecl} {part name : String}

theorem IsMade.outside_within (h : d.IsMade) (hpart : d.kind.isFlowPart = false) :
    Outside (part ++ "." ++ d.name) d (d.within part) := by
  cases h with
  | input old type => exact .input old type
  | output old type => exact .output old type
  | operator old desc inputs outputs boundary => exact .other rfl
  | pseudo old type boundary => exact .other rfl
  | flowPart => cases hpart

theorem Outside.within (h : d.IsMade) (hpart : d.kind.isFlowPart = false) (ho : Outside name d d') :
    Outside (part ++ "." ++ name) d (d'.within part) := by
  cases ho with
  | input old type => exact .input old type
  | output old type => exact .output old type
  | other hend =>
    cases h with
    | operator => exact .other rfl
    | pseudo => exact .other rfl
    | flowPart => cases hpart
    | _ => cases hend

end ElementDecl

namespace Site

/-- The element as it is declared outside of all parts around it. -/
def seen (s : Site) : ElementDecl := s.path.foldr (fun e d => d.within e.name) s.element.decl

theorem seen_under (e : Element) (s : Site) : (s.under e).seen = s.seen.within e.name := rfl

theorem outside_seen {s : Site} (hd : s.element.decl.IsMade) (hpart : s.element.isFlowPart = false)
    (hpath : s.path ≠ []) : ElementDecl.Outside s.name s.element.decl s.seen := by
  obtain ⟨path, flow, x⟩ := s
  induction path with
  | nil => exact absurd rfl hpath
  | cons e path ih =>
    rw [show Site.mk (e :: path) flow x = (Site.mk path flow x).under e from rfl, name_under,
      seen_under]
    cases path with
    | nil =>
      rw [name_here]
      exact hd.outside_within hpart
    | cons => exact (ih hd hpart (List.cons_ne_nil _ _)).within hd hpart

end Site

namespace FlowGraph

variable {g inner : FlowGraph} {e : Element}

/-! ## Units seen from outside -/

/-- The ends among the units of a flow are those of the flow itself. -/
theorem decls_of_ends (g : FlowGraph) : (g.units.filter (·.decl.isEnd)).map (·.decl)
    = (g.elements.filter fun x => x.isInput || x.isOutput).map (·.decl) := by
  rw [units_eq]
  induction g.elements with
  | nil => rfl
  | cons x xs ih =>
    rw [List.flatMap_cons, List.filter_append, List.map_append, ih]
    by_cases hx : x.isFlowPart = true
    · obtain ⟨inner, hk⟩ := isFlowPart_iff.1 hx
      have hnone : (unitsOf x).filter (·.decl.isEnd) = [] := by
        rw [unitsOf_flowPart hk, List.filter_eq_nil_iff]
        intro u hu
        rw [isEnd_eq_false_of_mem_partUnits hu]
        exact Bool.false_ne_true
      have hend : (x.isInput || x.isOutput) = false := by
        simp [Element.isInput, Element.isOutput, hk, ElementKind.isInput, ElementKind.isOutput]
      rw [hnone, List.filter_cons, hend]
      rfl
    · rw [unitsOf_of_not_isFlowPart (by simpa using hx), List.filter_cons]
      have hend : (x.unit.map Spot.here).decl.isEnd = (x.isInput || x.isOutput) := rfl
      rw [List.filter_cons, hend]
      cases x.isInput || x.isOutput <;> rfl

/-- The units of a part are those of its flow, seen from outside of the part. -/
theorem decls_partUnits (h : g.WellFormed) (he : e ∈ g.elements) (hk : e.kind = .flowPart inner) :
    ((partUnits e inner inner.units).map (·.decl)).Perm
      ((inner.units.map (·.decl)).map (·.within e.name)) := by
  have hlen := length_exposed h he hk
  have hzip : ∀ (xs : List Element) (ps : List PortId), xs.length = ps.length →
      (xs.zip ps).map (fun za => za.1.decl.within e.name)
        = (xs.map (·.decl)).map (·.within e.name) := by
    intro xs ps hlen
    have hfst := List.map_fst_zip (Nat.le_of_eq hlen)
    rw [← congrArg (List.map fun x : Element => x.decl) hfst, List.map_map, List.map_map]
    rfl
  have hdisjoint : ∀ x ∈ inner.elements, x.isInput = true → x.isOutput = false := by
    intro x _ hin
    rw [← Bool.not_eq_true, isOutput_iff, isInput_iff.1 hin]
    simp
  have hends : ((inner.units.filter (·.decl.isEnd)).map (·.decl)).Perm
      ((inner.elements.filter (·.isInput)).map (·.decl)
        ++ (inner.elements.filter (·.isOutput)).map (·.decl)) := by
    rw [decls_of_ends, ← List.map_append]
    exact (perm_filter_or hdisjoint).map _
  have hunits : (partUnits e inner inner.units).map (·.decl)
      = ((inner.elements.filter (·.isInput)).map (·.decl)
          ++ (inner.elements.filter (·.isOutput)).map (·.decl)
          ++ (inner.units.filter fun u => !u.decl.isEnd).map (·.decl)).map (·.within e.name) := by
    rw [List.map_append, List.map_append, ← hzip _ _ hlen.1, ← hzip _ _ hlen.2, partUnits,
      List.map_append, List.map_append, List.map_map, List.map_map, List.map_map, List.map_map]
    rfl
  rw [hunits]
  refine List.Perm.map _ ((hends.symm.append_right _).trans ?_)
  rw [← List.map_append]
  exact (List.filter_append_perm _ inner.units).map _

theorem decls_units {g : FlowGraph} (h : g.WellFormed) : (g.units.map (·.decl)).Perm
    ((g.sites.filter fun s => !s.element.isFlowPart).map Site.seen) := by
  induction h with
  | @intro g hg hinner ih =>
    rw [units_eq, sites_eq, List.map_flatMap, List.filter_flatMap, List.map_flatMap]
    refine List.Perm.flatMap_left _ fun e he => ?_
    by_cases hpart : e.isFlowPart = true
    · obtain ⟨inner, hk⟩ := isFlowPart_iff.1 hpart
      have hsites : (inner.sites.map (·.under e)).filter (fun s => !s.element.isFlowPart)
          = (inner.sites.filter fun s => !s.element.isFlowPart).map (·.under e) := by
        rw [List.filter_map]
        rfl
      rw [unitsOf_flowPart hk, sitesIn_of_flowPart hk, List.filter_cons_of_neg (by simp [hpart]),
        hsites, List.map_map]
      refine (decls_partUnits (.intro hg hinner) he hk).trans (((ih e he inner hk).map _).trans ?_)
      rw [List.map_map]
      exact List.Perm.refl _
    · rw [Bool.not_eq_true] at hpart
      rw [unitsOf_of_not_isFlowPart hpart, sitesIn_of_not_isFlowPart hpart,
        List.filter_cons_of_pos (by simp [hpart])]
      exact List.Perm.refl _

/-! ## Elements of the flat graph -/

theorem sites_here (g : FlowGraph) : g.sites.filter (·.path.isEmpty)
    = g.elements.map fun e => { path := [], flow := g, element := e } := by
  rw [sites_eq, List.filter_flatMap, List.map_eq_flatMap]
  refine List.flatMap_congr fun e _ => ?_
  have hnone : (sitesIn e).filter (·.path.isEmpty) = [] := by
    rw [List.filter_eq_nil_iff]
    intro s hs
    obtain ⟨path, hpath⟩ := path_of_mem_sitesIn hs
    rw [hpath]
    exact Bool.false_ne_true
  rw [List.filter_cons_of_pos rfl, hnone]

/-- The elements in parts, themselves no parts. -/
def nested (g : FlowGraph) : List Site :=
  g.sites.filter fun s => !s.element.isFlowPart && !s.path.isEmpty

theorem seen_sites_perm (g : FlowGraph) :
    ((g.sites.filter fun s => !s.element.isFlowPart).map Site.seen).Perm
      ((g.elements.filter fun x => !x.isFlowPart).map (·.decl) ++ g.nested.map Site.seen) := by
  have hsplit := List.filter_append_perm (·.path.isEmpty)
    (g.sites.filter fun s => !s.element.isFlowPart)
  rw [List.filter_filter, List.filter_filter] at hsplit
  have hhere : g.sites.filter (fun s => s.path.isEmpty && !s.element.isFlowPart)
      = (g.elements.filter fun x => !x.isFlowPart).map
          fun e => { path := [], flow := g, element := e } := by
    rw [show g.sites.filter (fun s => s.path.isEmpty && !s.element.isFlowPart)
      = (g.sites.filter (·.path.isEmpty)).filter fun s => !s.element.isFlowPart by
        rw [List.filter_filter]; simp only [Bool.and_comm], sites_here, List.filter_map]
    rfl
  have hnested : g.sites.filter (fun s => !s.path.isEmpty && !s.element.isFlowPart) = g.nested := by
    simp only [nested, Bool.and_comm]
  rw [hhere, hnested] at hsplit
  refine (hsplit.map Site.seen).symm.trans (List.Perm.of_eq ?_)
  rw [List.map_append, List.map_map]
  rfl

theorem nested_enumerate (h : g.WellFormed) : Enumerates g.nested
    fun s => g.IsSite s ∧ s.path ≠ [] ∧ s.element.isFlowPart = false := by
  refine (sites_enumerate h).filter.congr fun s => and_congr_right fun _ => ?_
  simp [and_comm]

/-- The flat graph has the elements of the graph that are no parts, and as many others as there are
elements in parts, declared as these are seen from outside. -/
theorem exists_copies (h : g.WellFormed) : ∃ copies : List (Site × Element),
    copies.map (·.1) = g.nested ∧
      g.flatten.1.elements.Perm
        (g.elements.filter (fun x => !x.isFlowPart) ++ copies.map (·.2)) ∧
      ∀ q ∈ copies, q.2.decl = q.1.seen := by
  have hdecls : (g.flatten.1.elements.map (·.decl)).Perm
      ((g.elements.filter fun x => !x.isFlowPart).map (·.decl) ++ g.nested.map Site.seen) := by
    have hunits := (units_flatten h).map (·.decl)
    rw [List.map_map, List.map_map] at hunits
    exact hunits.trans ((decls_units h).trans (seen_sites_perm g))
  have hkept : g.elements.filter (fun x => !x.isFlowPart) ⊆ g.flatten.1.elements := by
    intro x hx
    obtain ⟨hx, hpart⟩ := List.mem_filter.1 hx
    exact ((flatten_unfolds h).kept x hx (by simpa using hpart)).1
  obtain ⟨l, hl, hsub⟩ :=
    List.subperm_iff.1 ((h.coherent.elements_nodup.filter _).subperm hkept)
  obtain ⟨rest, hrest⟩ := hsub.exists_perm_append
  have hsplit := hl.symm.trans hrest
  have hothers : (rest.map (·.decl)).Perm (g.nested.map Site.seen) := by
    rw [← List.perm_append_left_iff, ← List.map_append]
    exact (hsplit.map _).symm.trans hdecls
  obtain ⟨copies, hfst, hsnd, hcopies⟩ := exists_pairing hothers
  exact ⟨copies, hfst, hsplit.trans (hsnd.symm.append_left _),
    fun q hq => (hcopies q hq).symm⟩

/-- Flattening a graph takes as many replacements as there are parts at all depths, which is as many
as can be made in any order, and leaves no part.  What was no part is kept; everything else that is
there afterwards is, one to one, an element of a part, under a name that leads through the parts to
it, and declared as it was, except that inputs and outputs are identities of their type. -/
theorem flatten_keeps_elements {edits : List Edit} (hg : empty.editAll? edits = some g) :
    (∃ parts : List Site, Enumerates parts (fun s => g.IsSite s ∧ s.element.isFlowPart = true) ∧
      g.flatten.2 = parts.length ∧ Replaces parts.length g g.flatten.1 ∧
      ∀ n k, Replaces n g k → n ≤ parts.length) ∧
    (∀ x ∈ g.flatten.1.elements, x.isFlowPart = false) ∧
    ∃ copies : List (Site × Element),
      Enumerates (copies.map (·.1))
        (fun s => g.IsSite s ∧ s.path ≠ [] ∧ s.element.isFlowPart = false) ∧
      g.flatten.1.elements.Perm
        (g.elements.filter (fun x => !x.isFlowPart) ++ copies.map (·.2)) ∧
      g.flatten.1.elementIds.Nodup ∧
      ∀ q ∈ copies, ElementDecl.Outside q.1.name q.1.element.decl q.2.decl := by
  have h : g.WellFormed := editAll?_wellFormed empty_wellFormed edits hg
  have hd : g.Declared := history_declared hg
  refine ⟨⟨_, (sites_enumerate h).filter (q := fun s => s.element.isFlowPart), ?_, ?_, ?_⟩,
    isFlat_iff.1 (flatten_isFlat g), ?_⟩
  · rw [count_flatten h, partCount_eq_length]
  · rw [← partCount_eq_length, ← count_flatten h]
    exact flatten_replaces g
  · intro n k hr
    have hcount := hr.count h
    rw [← partCount_eq_length]
    omega
  · obtain ⟨copies, hfst, hperm, hcopies⟩ := exists_copies h
    have hsites := nested_enumerate h
    refine ⟨copies, hfst ▸ hsites, hperm, (flatten_wellFormed h).coherent.elementIds_nodup, ?_⟩
    intro q hq
    obtain ⟨⟨hpath, hmem⟩, hne, hpart⟩ := (hsites.exact q.1).1 (hfst ▸ List.mem_map_of_mem hq)
    rw [hcopies q hq]
    exact Site.outside_seen ((hd.of_encloses hpath).made hmem) hpart hne

/-- A part with a part in it, and in that an operator between its two ends. -/
def nestedEdits : List Edit :=
  let desc : OperatorDesc := { name := "f", kind := "extract", resources := ["table"] }
  let deepest : List Edit :=
    [.input "a" "Record", .operator "f" desc [.plain "x" "Record"] [.plain "y" "Total"] .stage,
      .output "b" "Total", .connect 0 1, .connect 2 3]
  let middle : List Edit :=
    [.input "c" "Record", .flowPart "q" deepest, .pseudo "d" "Total" .stage, .output "e" "Total",
      .connect 0 1, .connect 2 3, .connect 4 5]
  [.input "in" "Record", .flowPart "p" middle, .output "out" "Total", .connect 0 1, .connect 2 3]

def nestedFlow : FlowGraph := (empty.editAll? nestedEdits).getD empty

set_option maxRecDepth 10000 in
/-- Two parts and six elements in them, beside the two elements of the graph itself. -/
theorem nestedFlow_keeps_elements : empty.editAll? nestedEdits = some nestedFlow ∧
    nestedFlow.flatten.2 = 2 ∧ ∃ copies : List (Site × Element), copies.length = 6 ∧
      Enumerates (copies.map (·.1))
        (fun s => nestedFlow.IsSite s ∧ s.path ≠ [] ∧ s.element.isFlowPart = false) ∧
      ∀ q ∈ copies, ElementDecl.Outside q.1.name q.1.element.decl q.2.decl := by
  have hnested : empty.editAll? nestedEdits = some nestedFlow := rfl
  obtain ⟨-, -, copies, hsites, hperm, -, hcopies⟩ := flatten_keeps_elements hnested
  refine ⟨hnested, by decide +kernel, copies, ?_, hsites, hcopies⟩
  have hlen := hperm.length_eq
  rw [List.length_append, List.length_map] at hlen
  have hflat : nestedFlow.flatten.1.elements.length = 8 := by decide +kernel
  have hkept : (nestedFlow.elements.filter fun x => !x.isFlowPart).length = 2 := by decide +kernel
  omega

end FlowGraph
end FlowPlan
