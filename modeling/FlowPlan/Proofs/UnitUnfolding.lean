import FlowPlan.Proofs.Relocation
import Mathlib.Data.List.Perm.Basic

/-!
Replacing a part keeps the units of a net.

Each element beside the part is the unit that it was, or holds those that it held.  In the part, the
ends of the flow become the elements that take over the ports of the part, and everything else
becomes its copy.
-/

namespace FlowPlan
namespace FlowGraph

variable {g inner : FlowGraph} {e x y : Element}

theorem copyOf_eq (part : String) (x : Element) : copyOf part x = x.decl.within part := by
  unfold copyOf ElementDecl.within
  cases hk : x.kind <;>
    simp [Element.decl, hk, firstType, ElementDecl.firstType, decls, Option.map_map,
      Function.comp_def]

/-! ## The units of an element -/

theorem unitsOf_of_not_isFlowPart (hx : x.isFlowPart = false) : unitsOf x = [x.unit.map .here] := by
  unfold Element.isFlowPart at hx
  unfold unitsOf
  cases hk : x.kind with
  | flowPart inner => rw [hk] at hx; cases hx
  | _ => rfl

theorem isFlowPart_iff : x.isFlowPart = true ↔ ∃ inner, x.kind = .flowPart inner := by
  unfold Element.isFlowPart
  cases x.kind <;> simp [ElementKind.isFlowPart]

theorem isFlowPart_eq_false_of_isEnd (hend : x.decl.isEnd = true) : x.isFlowPart = false := by
  rw [← Bool.not_eq_true, isFlowPart_iff]
  rintro ⟨inner, hk⟩
  change (x.kind.isInput || x.kind.isOutput) = true at hend
  rw [hk] at hend
  cases hend

theorem unitsOf_flowPart (hk : e.kind = .flowPart inner) :
    unitsOf e = partUnits e inner inner.units := by
  unfold unitsOf
  rw [hk]

theorem isEnd_eq_false_of_mem_partUnits {units : List (NetUnit Spot)} {u : NetUnit Spot}
    (hu : u ∈ partUnits e inner units) : u.decl.isEnd = false := by
  simp only [partUnits, List.mem_append, List.mem_map] at hu
  rcases hu with (⟨pair, -, rfl⟩ | ⟨pair, -, rfl⟩) | ⟨u', -, rfl⟩
  · exact ElementDecl.isEnd_within _ _
  · exact ElementDecl.isEnd_within _ _
  · exact ElementDecl.isEnd_within _ _

/-- The units that an element is or holds have their ports at the element or in it. -/
theorem spot_of_mem_unitsOf {u : NetUnit Spot} (hu : u ∈ unitsOf x) {s : Spot} (hs : s ∈ u.ports) :
    (∃ p ∈ x.portIds, s = .here p) ∨ ∃ s', s = .under x.id s' := by
  by_cases hx : x.isFlowPart = true
  · obtain ⟨inner, hk⟩ := isFlowPart_iff.1 hx
    rw [unitsOf_flowPart hk] at hu
    simp only [partUnits, List.mem_append, List.mem_map] at hu
    rcases hu with (⟨⟨z, a⟩, hza, rfl⟩ | ⟨⟨z, b⟩, hzb, rfl⟩) | ⟨u', -, rfl⟩
    · simp only [NetUnit.ports, List.mem_append, List.mem_singleton, List.mem_map] at hs
      rcases hs with rfl | ⟨q, -, rfl⟩
      · exact .inl ⟨a, Element.mem_portIds.2 (.inl (List.of_mem_zip hza).2), rfl⟩
      · exact .inr ⟨_, rfl⟩
    · simp only [NetUnit.ports, List.mem_append, List.mem_singleton, List.mem_map] at hs
      rcases hs with ⟨q, -, rfl⟩ | rfl
      · exact .inr ⟨_, rfl⟩
      · exact .inl ⟨b, Element.mem_portIds.2 (.inr (List.of_mem_zip hzb).2), rfl⟩
    · simp only [NetUnit.ports, NetUnit.within, NetUnit.map, List.mem_append, List.mem_map] at hs
      rcases hs with ⟨s', -, rfl⟩ | ⟨s', -, rfl⟩
      · exact .inr ⟨s', rfl⟩
      · exact .inr ⟨s', rfl⟩
  · rw [unitsOf_of_not_isFlowPart (by simpa using hx), List.mem_singleton] at hu
    subst hu
    rw [NetUnit.ports_map, List.mem_map] at hs
    obtain ⟨p, hp, rfl⟩ := hs
    exact .inl ⟨p, by rw [Element.portIds_eq]; exact hp, rfl⟩

/-- A part whose ports and whose contents are relabelled is a part with the new ports. -/
theorem partUnits_within {part : String} {f : Spot → Spot} (hname : y.name = s!"{part}.{x.name}")
    (hin : x.inputIds.map (fun q => f (.here q)) = y.inputIds.map .here)
    (hout : x.outputIds.map (fun q => f (.here q)) = y.outputIds.map .here)
    (hunder : ∀ s, f (.under x.id s) = .under y.id s) (inner : FlowGraph)
    (units : List (NetUnit Spot)) :
    (partUnits x inner units).map (·.within part f) = partUnits y inner units := by
  -- Entries and exits differ in the side that the port of the part is on, which is left to `F`.
  have hzip : ∀ (zs : List Element) (ps qs : List PortId) (F : Element → Spot → NetUnit Spot),
      ps.map (fun q => f (.here q)) = qs.map .here →
        (zs.zip ps).map (fun za => F za.1 (f (.here za.2)))
          = (zs.zip qs).map fun za => F za.1 (.here za.2) := by
    intro zs ps qs F hports
    have hside : ∀ (ps : List PortId) (t : PortId → Spot),
        (zs.zip ps).map (fun za => F za.1 (t za.2))
          = (zs.zip (ps.map t)).map fun za => F za.1 za.2 := by
      intro ps t
      rw [List.zip_map_right, List.map_map]
      rfl
    rw [hside ps fun q => f (.here q), hports, ← hside qs]
  rw [partUnits, partUnits, List.map_append, List.map_append, List.map_map, List.map_map,
    List.map_map]
  congr 1
  · congr 1
    · refine Eq.trans (List.map_congr_left fun za _ => ?_) (hzip _ x.inputIds y.inputIds
        (fun z s => { decl := z.decl.within y.name, ins := [s],
                      outs := z.outputIds.map fun q => .under y.id (.here q) }) hin)
      simp [NetUnit.within, NetUnit.map, ElementDecl.within_within, hname, hunder]
    · refine Eq.trans (List.map_congr_left fun za _ => ?_) (hzip _ x.outputIds y.outputIds
        (fun z s => { decl := z.decl.within y.name, outs := [s],
                      ins := z.inputIds.map fun q => .under y.id (.here q) }) hout)
      simp [NetUnit.within, NetUnit.map, ElementDecl.within_within, hname, hunder]
  · refine List.map_congr_left fun u _ => ?_
    rw [Function.comp_apply, NetUnit.within_within, hname]
    congr 1
    exact funext hunder

section Part

variable (h : g.WellFormed) (he : e ∈ g.elements) (hk : e.kind = .flowPart inner)

include h he hk

/-! ## Units beside the part -/

theorem unitsOf_other (hx : x ∈ g.elements) (hne : x ≠ e) :
    (unitsOf x).map (NetUnit.map (g.relocate e inner)) = unitsOf x := by
  obtain ⟨hport, hunder⟩ := relocate_other h he hk hx hne
  conv => rhs; rw [← List.map_id (unitsOf x)]
  refine List.map_congr_left fun u hu => ?_
  have hfix : u.map (g.relocate e inner) = u.map id := by
    refine NetUnit.map_congr fun s hs => ?_
    rcases spot_of_mem_unitsOf hu hs with ⟨p, hp, rfl⟩ | ⟨s', rfl⟩
    · exact hport p hp
    · exact hunder s'
  rw [hfix]
  simp [NetUnit.map]

/-! ## Units in the part -/

theorem isFlowPart_copy (hxy : (x, y) ∈ g.copies e inner) : y.isFlowPart = x.isFlowPart := by
  obtain ⟨-, -, hy, -⟩ := mem_of_mem_copies h he hk hxy
  have hkind : y.kind = (copyOf e.name x).kind := congrArg ElementDecl.kind hy
  unfold Element.isFlowPart
  rw [hkind, copyOf]
  cases x.kind <;> rfl

/-- What is no end becomes its copy. -/
theorem unitsOf_copy (hxy : (x, y) ∈ g.copies e inner) (hin : x.isInput = false)
    (hout : x.isOutput = false) :
    ((unitsOf x).filter fun u => !u.decl.isEnd).map
        (·.within e.name (g.relocate e inner ∘ .under e.id)) = unitsOf y := by
  obtain ⟨-, -, hy, -⟩ := mem_of_mem_copies h he hk hxy
  obtain ⟨hins, houts⟩ := relocate_copied h he hk hxy
  have hdecl : y.decl = x.decl.within e.name := by rw [hy, copyOf_eq]
  by_cases hx : x.isFlowPart = true
  · obtain ⟨nested, hkx⟩ := isFlowPart_iff.1 hx
    have hcopy : copyOf e.name x = .flowPart s!"{e.name}.{x.name}" nested := by
      rw [copyOf, hkx]
    have hky : y.kind = .flowPart nested := by
      rw [show y.kind = (copyOf e.name x).kind from congrArg ElementDecl.kind hy, hcopy]
      rfl
    have hname : y.name = s!"{e.name}.{x.name}" := by
      rw [show y.name = (copyOf e.name x).name from congrArg ElementDecl.name hy, hcopy]
      rfl
    rw [unitsOf_flowPart hkx, unitsOf_flowPart hky, List.filter_eq_self.2 fun u hu => by
      rw [isEnd_eq_false_of_mem_partUnits hu]; rfl]
    exact partUnits_within hname (hins hin) (houts hout) (relocate_nested h he hk hxy) nested _
  · have hxp : x.isFlowPart = false := by simpa using hx
    have hend : x.decl.isEnd = false := by
      show (x.isInput || x.isOutput) = false
      rw [hin, hout]
      rfl
    rw [unitsOf_of_not_isFlowPart hxp, unitsOf_of_not_isFlowPart (by
      rw [isFlowPart_copy h he hk hxy, hxp])]
    have hunit : (x.unit.map Spot.here).within e.name (g.relocate e inner ∘ .under e.id)
        = y.unit.map .here := by
      simp only [NetUnit.within, NetUnit.map, Element.unit, List.map_map, hdecl, ← hins hin,
        ← houts hout]
      rfl
    rw [List.filter_cons_of_pos (by show (!x.decl.isEnd) = true; rw [hend]; rfl), List.filter_nil,
      List.map_singleton, hunit]

/-! ### The ends of the flow in the part -/

omit h he hk in
/-- Ports handed to the ends of a flow one after the other are handed to their copies. -/
theorem map_zip_ends {p : Element → Bool} {f : Element × Element → List PortId}
    {t : PortId → Spot} {G : Element → Spot → NetUnit Spot} (pairs : List (Element × Element))
    (hend : ∀ pair ∈ pairs, p pair.1 = true →
      ∃ a, f pair = [a] ∧ G pair.1 (.here a) = pair.2.unit.map .here)
    (hother : ∀ pair ∈ pairs, p pair.1 = false → f pair = []) (ids : List PortId)
    (hids : ids.map t = (pairs.flatMap f).map .here) :
    (((pairs.map (·.1)).filter p).zip ids).map (fun xa => G xa.1 (t xa.2))
      = pairs.flatMap fun pair => if p pair.1 then [pair.2.unit.map .here] else [] := by
  induction pairs generalizing ids with
  | nil => rfl
  | cons pair pairs ih =>
    have hrest := ih (fun q hq => hend q (List.mem_cons_of_mem pair hq))
      fun q hq => hother q (List.mem_cons_of_mem pair hq)
    rw [List.flatMap_cons, List.map_cons]
    rw [List.flatMap_cons] at hids
    by_cases hp : p pair.1 = true
    · obtain ⟨a, ha, hunit⟩ := hend pair List.mem_cons_self hp
      rw [ha, List.singleton_append, List.map_cons] at hids
      obtain ⟨i, ids, rfl, hi, hids⟩ := List.map_eq_cons_iff.1 hids
      rw [List.filter_cons_of_pos hp, if_pos hp, List.zip_cons_cons, List.map_cons, hi, hunit,
        hrest ids hids, List.singleton_append]
    · rw [hother pair List.mem_cons_self (by simpa using hp), List.nil_append] at hids
      rw [List.filter_cons_of_neg hp, if_neg hp, List.nil_append, hrest ids hids]

theorem inputUnits_copies :
    (((inner.elements.filter (·.isInput)).zip e.inputIds).map fun xa =>
        ({ decl := xa.1.decl.within e.name, ins := [g.relocate e inner (.here xa.2)],
           outs := xa.1.outputIds.map fun q => g.relocate e inner (.under e.id (.here q)) } :
          NetUnit Spot))
      = (g.copies e inner).flatMap fun pair =>
        if pair.1.isInput then [pair.2.unit.map .here] else [] := by
  conv => lhs; rw [← map_fst_copiesIn e.name (g.removeElement e.id) inner.elements]
  refine map_zip_ends (f := entryPorts) (t := fun p => g.relocate e inner (.here p))
    (G := fun x s =>
      { decl := x.decl.within e.name, ins := [s],
        outs := x.outputIds.map fun q => g.relocate e inner (.under e.id (.here q)) })
    (g.copies e inner) ?_ ?_ e.inputIds ?_
  · rintro ⟨x, y⟩ hxy hin
    obtain ⟨-, hx, hy, -⟩ := mem_of_mem_copies h he hk hxy
    have hlen := (length_copyOf hx hy).1
    rw [if_pos hin] at hlen
    obtain ⟨a, ha⟩ := List.length_eq_one_iff.1 hlen
    have hout : x.isOutput = false := by
      rw [← Bool.not_eq_true, isOutput_iff, isInput_iff.1 hin]
      simp
    refine ⟨a, by simp only [entryPorts, if_pos hin, ha, List.take_one, List.head?_cons,
      Option.toList_some], ?_⟩
    simp only [NetUnit.map, Element.unit, ha, (relocate_copied h he hk hxy).2 hout, hy, copyOf_eq,
      List.map_singleton]
  · intro pair _ hin
    simp [entryPorts, hin]
  · rw [(relocate_ends h he hk).1, (unfolding_spec g e inner).2.2.2.1]

theorem outputUnits_copies :
    (((inner.elements.filter (·.isOutput)).zip e.outputIds).map fun xb =>
        ({ decl := xb.1.decl.within e.name,
           ins := xb.1.inputIds.map fun q => g.relocate e inner (.under e.id (.here q)),
           outs := [g.relocate e inner (.here xb.2)] } : NetUnit Spot))
      = (g.copies e inner).flatMap fun pair =>
        if pair.1.isOutput then [pair.2.unit.map .here] else [] := by
  conv => lhs; rw [← map_fst_copiesIn e.name (g.removeElement e.id) inner.elements]
  refine map_zip_ends (f := exitPorts) (t := fun p => g.relocate e inner (.here p))
    (G := fun x s =>
      { decl := x.decl.within e.name, outs := [s],
        ins := x.inputIds.map fun q => g.relocate e inner (.under e.id (.here q)) })
    (g.copies e inner) ?_ ?_ e.outputIds ?_
  · rintro ⟨x, y⟩ hxy hout
    obtain ⟨-, hx, hy, -⟩ := mem_of_mem_copies h he hk hxy
    have hlen := (length_copyOf hx hy).2
    rw [if_pos hout] at hlen
    obtain ⟨b, hb⟩ := List.length_eq_one_iff.1 hlen
    have hin : x.isInput = false := by
      rw [← Bool.not_eq_true, isInput_iff, isOutput_iff.1 hout]
      simp
    refine ⟨b, by simp only [exitPorts, if_pos hout, hb, List.take_one, List.head?_cons,
      Option.toList_some], ?_⟩
    simp only [NetUnit.map, Element.unit, hb, (relocate_copied h he hk hxy).1 hin, hy, copyOf_eq,
      List.map_singleton]
  · intro pair _ hout
    simp [exitPorts, hout]
  · rw [(relocate_ends h he hk).2, (unfolding_spec g e inner).2.2.2.2]

theorem innerUnits_copies :
    (inner.units.filter fun u => !u.decl.isEnd).map
        (·.within e.name (g.relocate e inner ∘ .under e.id))
      = (g.copies e inner).flatMap fun pair =>
        if pair.1.isInput || pair.1.isOutput then [] else unitsOf pair.2 := by
  rw [units_eq]
  conv => lhs; rw [← map_fst_copiesIn e.name (g.removeElement e.id) inner.elements]
  rw [List.flatMap_map, List.filter_flatMap, List.map_flatMap]
  refine List.flatMap_congr fun ⟨x, y⟩ hxy => ?_
  by_cases hend : (x.isInput || x.isOutput) = true
  · have hnone : x.decl.isEnd = true := hend
    rw [if_pos hend, unitsOf_of_not_isFlowPart (isFlowPart_eq_false_of_isEnd hnone),
      List.filter_cons_of_neg (by show ¬ (!x.decl.isEnd) = true; simp [hnone]), List.filter_nil,
      List.map_nil]
  · rw [if_neg hend]
    simp only [Bool.or_eq_true, not_or, Bool.not_eq_true] at hend
    exact unitsOf_copy h he hk hxy hend.1 hend.2

theorem unitsOf_part_perm :
    ((g.copies e inner).flatMap fun pair => unitsOf pair.2).Perm
      ((unitsOf e).map (NetUnit.map (g.relocate e inner))) := by
  rw [unitsOf_flowPart hk, partUnits, List.map_append, List.map_append, List.map_map, List.map_map,
    List.map_map]
  have hinner : (NetUnit.map (g.relocate e inner) ∘ fun u : NetUnit Spot =>
      u.within e.name (.under e.id))
        = fun u => u.within e.name (g.relocate e inner ∘ .under e.id) :=
    funext fun u => NetUnit.within_map _ _ _ u
  rw [hinner, innerUnits_copies h he hk]
  have hins := inputUnits_copies h he hk
  have houts := outputUnits_copies h he hk
  -- A copy is what an input or an output became, or it holds what any other element held.
  have hends : ∀ pair ∈ g.copies e inner, unitsOf pair.2 =
      ((if pair.1.isInput then [pair.2.unit.map Spot.here] else [])
        ++ (if pair.1.isOutput then [pair.2.unit.map Spot.here] else []))
        ++ (if pair.1.isInput || pair.1.isOutput then [] else unitsOf pair.2) := by
    rintro ⟨x, y⟩ hxy
    have hpart := isFlowPart_copy h he hk hxy
    unfold Element.isFlowPart Element.isInput Element.isOutput at *
    cases hkx : x.kind <;> rw [hkx] at hpart <;>
      simp_all [ElementKind.isInput, ElementKind.isOutput, ElementKind.isFlowPart,
        unitsOf_of_not_isFlowPart, Element.isFlowPart]
  rw [List.flatMap_congr hends]
  refine (List.flatMap_append_perm _ _ _).symm.trans (List.Perm.append ?_ (List.Perm.refl _))
  refine (List.flatMap_append_perm _ _ _).symm.trans (List.Perm.append ?_ ?_)
  · rw [← hins]
    refine List.Perm.of_eq (List.map_congr_left fun xa _ => ?_)
    simp [NetUnit.map]
  · rw [← houts]
    refine List.Perm.of_eq (List.map_congr_left fun xb _ => ?_)
    simp [NetUnit.map]

omit h he hk in
theorem elements_perm_removeElement (h : g.Coherent) (he : e ∈ g.elements) :
    g.elements.Perm (e :: (g.removeElement e.id).elements) := by
  have hrest : (e :: (g.removeElement e.id).elements).Nodup := by
    refine List.nodup_cons.2 ⟨fun hmem => ((mem_removeElement h he).1 hmem).2 rfl, ?_⟩
    rw [removeElement_eq h he]
    exact h.elements_nodup.filter _
  refine (List.perm_ext_iff_of_nodup h.elements_nodup hrest).2 fun x => ?_
  rw [List.mem_cons, mem_removeElement h he]
  by_cases hx : x = e <;> simp [hx, he]

/-- Replacing a part moves the ports of the units and nothing else. -/
theorem units_unfold_perm :
    (g.unfold e inner).units.Perm (g.units.map (NetUnit.map (g.relocate e inner))) := by
  rw [units_eq, units_eq, elements_unfold, List.flatMap_append, List.map_flatMap]
  refine List.Perm.trans ?_ ((elements_perm_removeElement h.coherent he).flatMap_right _).symm
  rw [List.flatMap_cons, List.flatMap_map]
  refine List.perm_append_comm.trans ((unitsOf_part_perm h he hk).append ?_)
  refine List.Perm.of_eq (List.flatMap_congr fun x hx => ?_)
  obtain ⟨hx, hne⟩ := (mem_removeElement h.coherent he).1 hx
  exact (unitsOf_other h he hk hx hne).symm

end Part

end FlowGraph
end FlowPlan
