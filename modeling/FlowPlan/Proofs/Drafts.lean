import FlowPlan.Draft
import FlowPlan.Proofs.Unfolding
import Mathlib.Data.List.TakeWhile

/-!
Drafts, step by step.

A draft keeps three things apart: the graph, the table of names and the first mistake.  `Meant` says
what a reference means in a graph alone, without the table, and `Done` what one step makes of a
graph: the next graph, or a mistake.  Both have one result only (`meant_iff`, `done_iff`), and it is
the one that the draft finds, since its table lists the elements of its graph under names that
differ.  `applyAll_sticky` follows a whole sequence of steps.  Nothing is assumed about the steps;
the flow of a part need not even be well-formed, since its place in the draft is not looked into.
-/

namespace FlowPlan

def Element.portsOn (x : Element) : Direction → List Port
  | .input => x.inputs
  | .output => x.outputs

def FlowGraph.elementNames (g : FlowGraph) : List String := g.elements.map (·.name)

namespace Draft

/-! ## Splitting a reference -/

theorem splitReference?_eq_none_iff {reference : String} :
    splitReference? reference = none ↔ '.' ∉ reference.toList := by
  have hdots : reference.toList.reverse.dropWhile (· ≠ '.') = [] ↔ '.' ∉ reference.toList := by
    rw [List.dropWhile_eq_nil_iff]
    simp only [List.mem_reverse, decide_eq_true_eq]
    exact ⟨fun h hmem => h '.' hmem rfl, fun h c hc heq => h (heq ▸ hc)⟩
  rw [← hdots, splitReference?]
  cases reference.toList.reverse.dropWhile (· ≠ '.') <;> simp

/-- The last dot splits a reference. -/
theorem splitReference?_eq_some_iff {reference element port : String} :
    splitReference? reference = some (element, port) ↔
      reference = element ++ "." ++ port ∧ '.' ∉ port.toList := by
  constructor
  · intro h
    rw [splitReference?] at h
    split at h
    case h_1 => cases h
    case h_2 c rest heq =>
      obtain ⟨rfl, rfl⟩ := Prod.mk.inj (Option.some.inj h)
      have hdot : c = '.' := by
        have hhead := List.head?_dropWhile_not (· ≠ '.') reference.toList.reverse
        rw [heq] at hhead
        simpa using hhead
      have hparts := @List.takeWhile_append_dropWhile _ (· ≠ '.') reference.toList.reverse
      rw [heq, hdot] at hparts
      refine ⟨String.toList_injective ?_, fun hmem => ?_⟩
      · simpa using (congrArg List.reverse hparts).symm
      · rw [String.toList_ofList, List.mem_reverse] at hmem
        simpa using List.mem_takeWhile_imp hmem
  · rintro ⟨rfl, hport⟩
    have hlist : (element ++ "." ++ port).toList.reverse
        = port.toList.reverse ++ '.' :: element.toList.reverse := by
      simp
    have hall : ∀ c ∈ port.toList.reverse, decide (c ≠ '.') = true := by
      intro c hc
      rw [decide_eq_true_eq]
      rintro rfl
      exact hport (List.mem_reverse.1 hc)
    rw [splitReference?]
    simp only [hlist]
    rw [List.dropWhile_append_of_pos hall, List.takeWhile_append_of_pos hall]
    simp

/-! ## What references and steps mean -/

/-- What a reference means in a graph: a port, or why it means none.  An element of the very name
comes first, dots and all; otherwise the last dot stands between an element and its port. -/
inductive Meant (g : FlowGraph) (direction : Direction) : String → Except DraftError PortId → Prop
  | single {x : Element} {p : Port} (hx : x ∈ g.elements) (hp : x.portsOn direction = [p]) :
      Meant g direction x.name (.ok p.id)
  | ambiguous {x : Element} (hx : x ∈ g.elements) (hp : (x.portsOn direction).length ≠ 1) :
      Meant g direction x.name
        (.error (.ambiguousPort x.name (x.portsOn direction).length direction))
  | port {x : Element} {port : String} {p : Port} (hx : x ∈ g.elements)
      (hfree : x.name ++ "." ++ port ∉ g.elementNames) (hdot : '.' ∉ port.toList)
      (hp : (x.portsOn direction).find? (·.name == port) = some p) :
      Meant g direction (x.name ++ "." ++ port) (.ok p.id)
  | noPort {x : Element} {port : String} (hx : x ∈ g.elements)
      (hfree : x.name ++ "." ++ port ∉ g.elementNames) (hdot : '.' ∉ port.toList)
      (hp : ∀ p ∈ x.portsOn direction, p.name ≠ port) :
      Meant g direction (x.name ++ "." ++ port) (.error (.unknownPort x.name port direction))
  | noElement {element port : String} (hfree : element ++ "." ++ port ∉ g.elementNames)
      (hdot : '.' ∉ port.toList) (hnone : element ∉ g.elementNames) :
      Meant g direction (element ++ "." ++ port) (.error (.unknownElement element))
  | noDot {reference : String} (hfree : reference ∉ g.elementNames)
      (hdot : '.' ∉ reference.toList) :
      Meant g direction reference (.error (.unknownElement reference))

/-- The element that a step declares; ports whose type is left out have the given one. -/
def Step.decl? (type : String) : Step → Option ElementDecl
  | .input name t => some (.input name (t.getD type))
  | .output name t => some (.output name (t.getD type))
  | .pseudo name t boundary => some (.pseudo name (t.getD type) boundary)
  | .operator name desc inputs outputs boundary =>
    some (.operator name desc inputs outputs boundary)
  | .flowPart name inner => some (.flowPart name inner)
  | .connect _ _ => none

/-- What a step makes of a graph, or why it fails. -/
inductive Done (type : String) (g : FlowGraph) : Step → Except DraftError FlowGraph → Prop
  | declared {step : Step} {e : ElementDecl} (he : step.decl? type = some e)
      (hfree : e.name ∉ g.elementNames) : Done type g step (.ok (g.add e))
  | duplicate {step : Step} {e : ElementDecl} (he : step.decl? type = some e)
      (htaken : e.name ∈ g.elementNames) : Done type g step (.error (.duplicate e.name))
  | joined {source target : String} {u v : PortId} (hu : Meant g .output source (.ok u))
      (hv : Meant g .input target (.ok v)) :
      Done type g (.connect source target) (.ok (g.connect u v))
  | noSource {source target : String} {e : DraftError} (hu : Meant g .output source (.error e)) :
      Done type g (.connect source target) (.error e)
  | noTarget {source target : String} {u : PortId} {e : DraftError}
      (hu : Meant g .output source (.ok u)) (hv : Meant g .input target (.error e)) :
      Done type g (.connect source target) (.error e)

/-- Steps that lead from one graph to another, none of which fails. -/
inductive AllDone (type : String) : FlowGraph → List Step → FlowGraph → Prop
  | nil (g : FlowGraph) : AllDone type g [] g
  | cons {g k l : FlowGraph} {step : Step} {steps : List Step} (h : Done type g step (.ok k))
      (hs : AllDone type k steps l) : AllDone type g (step :: steps) l

/-! ## The table of names -/

/-- The table lists the elements of the graph, whose names differ. -/
structure Consistent (d : Draft) : Prop where
  coherent : d.graph.Coherent
  table : d.names = d.graph.elements.map fun x => (x.name, x.id)
  distinct : d.graph.elementNames.Nodup

theorem start_consistent (type : String) : (start type).Consistent :=
  ⟨FlowGraph.empty_coherent, rfl, .nil⟩

namespace Consistent

variable {d : Draft}

theorem id?_eq_find? (h : d.Consistent) (name : String) : d.id? name = d.graph.find? name := by
  rw [id?, h.table, FlowGraph.find?]
  induction d.graph.elements with
  | nil => rfl
  | cons x xs ih =>
    rw [List.map_cons, List.lookup_cons, List.find?_cons, ih, BEq.comm]
    cases x.name == name <;> rfl

theorem id?_eq_none_iff (h : d.Consistent) {name : String} :
    d.id? name = none ↔ name ∉ d.graph.elementNames := by
  simp [h.id?_eq_find?, FlowGraph.find?, FlowGraph.elementNames]

theorem id?_eq_some (h : d.Consistent) {x : Element} (hx : x ∈ d.graph.elements) :
    d.id? x.name = some x.id := by
  have hkeys : (d.names.map (·.1)).Nodup := by
    rw [h.table, List.map_map]
    exact h.distinct
  refine lookup_of_mem hkeys ?_
  rw [h.table]
  exact List.mem_map.2 ⟨x, hx, rfl⟩

theorem exists_of_id? (h : d.Consistent) {name : String} {i : ElementId}
    (hi : d.id? name = some i) : ∃ x ∈ d.graph.elements, x.name = name ∧ x.id = i := by
  rw [h.id?_eq_find?, FlowGraph.find?, Option.map_eq_some_iff] at hi
  obtain ⟨x, hx, rfl⟩ := hi
  exact ⟨x, List.mem_of_find?_eq_some hx, by simpa using List.find?_some hx, rfl⟩

theorem portsOf_eq (h : d.Consistent) {x : Element} (hx : x ∈ d.graph.elements)
    (direction : Direction) : d.graph.portsOf direction x.id = x.portsOn direction := by
  cases direction with
  | input => exact FlowGraph.Coherent.inputsOf_eq h.coherent hx
  | output => exact FlowGraph.Coherent.outputsOf_eq h.coherent hx

end Consistent

/-! ## One result -/

section Results

variable {d : Draft} {direction : Direction} {reference : String} {step : Step}

theorem meant_resolve (h : d.Consistent) (reference : String) (direction : Direction) :
    Meant d.graph direction reference (d.resolve reference direction) := by
  rw [resolve]
  cases hi : d.id? reference with
  | some i =>
    obtain ⟨x, hx, rfl, rfl⟩ := h.exists_of_id? hi
    simp only [h.portsOf_eq hx]
    split
    case h_1 p hp => exact .single hx hp
    case h_2 hp =>
      refine .ambiguous hx fun hlen => ?_
      obtain ⟨p, hp'⟩ := List.length_eq_one_iff.1 hlen
      exact hp p hp'
  | none =>
    have hfree := h.id?_eq_none_iff.1 hi
    cases hs : splitReference? reference with
    | none => exact .noDot hfree (splitReference?_eq_none_iff.1 hs)
    | some parts =>
      obtain ⟨element, port⟩ := parts
      obtain ⟨rfl, hdot⟩ := splitReference?_eq_some_iff.1 hs
      dsimp only
      cases hi' : d.id? element with
      | none => exact .noElement hfree hdot (h.id?_eq_none_iff.1 hi')
      | some i =>
        obtain ⟨x, hx, rfl, rfl⟩ := h.exists_of_id? hi'
        simp only [FlowGraph.portNamed?, h.portsOf_eq hx]
        cases hp : (x.portsOn direction).find? (·.name == port) with
        | none =>
          refine .noPort hx hfree hdot fun p hmem => ?_
          simpa using List.find?_eq_none.1 hp p hmem
        | some p => exact .port hx hfree hdot hp

theorem resolve_of_meant (h : d.Consistent) {r : Except DraftError PortId}
    (hm : Meant d.graph direction reference r) : d.resolve reference direction = r := by
  have hsplit : ∀ {element port : String}, '.' ∉ port.toList →
      splitReference? (element ++ "." ++ port) = some (element, port) :=
    fun hdot => splitReference?_eq_some_iff.2 ⟨rfl, hdot⟩
  cases hm with
  | single hx hp => simp [resolve, h.id?_eq_some hx, h.portsOf_eq hx, hp]
  | @ambiguous x hx hp =>
    simp only [resolve, h.id?_eq_some hx, h.portsOf_eq hx]
    split
    case h_1 p hp' => exact absurd (by rw [hp']; rfl) hp
    case h_2 => rfl
  | port hx hfree hdot hp =>
    simp [resolve, h.id?_eq_none_iff.2 hfree, hsplit hdot, h.id?_eq_some hx, FlowGraph.portNamed?,
      h.portsOf_eq hx, hp]
  | @noPort x port hx hfree hdot hp =>
    have hnone : (x.portsOn direction).find? (·.name == port) = none :=
      List.find?_eq_none.2 fun p hmem => by simpa using hp p hmem
    simp [resolve, h.id?_eq_none_iff.2 hfree, hsplit hdot, h.id?_eq_some hx, FlowGraph.portNamed?,
      h.portsOf_eq hx, hnone]
  | noElement hfree hdot hnone =>
    simp [resolve, h.id?_eq_none_iff.2 hfree, hsplit hdot, h.id?_eq_none_iff.2 hnone]
  | noDot hfree hdot =>
    simp [resolve, h.id?_eq_none_iff.2 hfree, splitReference?_eq_none_iff.2 hdot]

/-- A reference means one thing, and the draft finds it. -/
theorem meant_iff (h : d.Consistent) {r : Except DraftError PortId} :
    Meant d.graph direction reference r ↔ d.resolve reference direction = r := by
  constructor
  · exact resolve_of_meant h
  · rintro rfl
    exact meant_resolve h reference direction

theorem apply_of_decl {e : ElementDecl} (he : step.decl? d.type = some e) :
    d.apply step = d.claim e := by
  cases step <;> cases he <;> rfl

theorem apply_of_error {e : DraftError} (he : d.error = some e) (step : Step) :
    d.apply step = d := by
  cases step <;> simp [apply, claim, connect, he]

theorem claim_of_free (h : d.Consistent) (hok : d.error = none) {e : ElementDecl}
    (hfree : e.name ∉ d.graph.elementNames) :
    d.claim e = { d with
      graph := d.graph.add e, names := d.names ++ [(e.name, d.graph.ids.nextElement)] } := by
  simp [claim, hok, h.id?_eq_none_iff.2 hfree]

theorem claim_of_taken (h : d.Consistent) (hok : d.error = none) {e : ElementDecl}
    (htaken : e.name ∈ d.graph.elementNames) :
    d.claim e = { d with error := some (.duplicate e.name) } := by
  have hfound : (d.id? e.name).isSome = true := by
    rw [Option.isSome_iff_ne_none, ne_eq, h.id?_eq_none_iff]
    exact fun hfree => hfree htaken
  simp [claim, hok, hfound]

theorem done_apply (h : d.Consistent) (hok : d.error = none) (step : Step) :
    Done d.type d.graph step (d.apply step).finish := by
  cases he : step.decl? d.type with
  | some e =>
    rw [apply_of_decl he]
    by_cases hname : e.name ∈ d.graph.elementNames
    · rw [claim_of_taken h hok hname]
      exact .duplicate he hname
    · rw [claim_of_free h hok hname, finish]
      simp only [hok]
      exact .declared he hname
  | none =>
    cases step with
    | connect source target =>
      simp only [apply, connect, hok, resolveBoth, finish]
      cases hsource : d.resolve source .output with
      | error e => exact .noSource ((meant_iff h).2 hsource)
      | ok u =>
        have hu := (meant_iff h).2 hsource
        cases htarget : d.resolve target .input with
        | error e => exact .noTarget hu ((meant_iff h).2 htarget)
        | ok v => exact .joined hu ((meant_iff h).2 htarget)
    | _ => cases he

theorem finish_of_done (h : d.Consistent) (hok : d.error = none) {r : Except DraftError FlowGraph}
    (hd : Done d.type d.graph step r) : (d.apply step).finish = r := by
  cases hd with
  | declared he hfree => rw [apply_of_decl he, claim_of_free h hok hfree, finish, hok]
  | duplicate he htaken => rw [apply_of_decl he, claim_of_taken h hok htaken, finish]
  | joined hu hv =>
    simp [apply, connect, hok, resolveBoth, (meant_iff h).1 hu, (meant_iff h).1 hv, finish, bind,
      Except.bind, pure, Except.pure]
  | noSource hu =>
    simp [apply, connect, hok, resolveBoth, (meant_iff h).1 hu, finish, bind, Except.bind]
  | noTarget hu hv =>
    simp [apply, connect, hok, resolveBoth, (meant_iff h).1 hu, (meant_iff h).1 hv, finish, bind,
      Except.bind]

/-- As long as nothing went wrong, a step has one result, and it is the one of the draft. -/
theorem done_iff (h : d.Consistent) (hok : d.error = none) {r : Except DraftError FlowGraph} :
    Done d.type d.graph step r ↔ (d.apply step).finish = r := by
  constructor
  · exact finish_of_done h hok
  · rintro rfl
    exact done_apply h hok step

end Results

/-! ## What a step keeps -/

section Steps

variable {d : Draft} {step : Step}

theorem decl?_shaped {type : String} {e : ElementDecl} (he : step.decl? type = some e) :
    e.Shaped := by
  cases step <;> cases he
  · exact ElementDecl.input_shaped _ _
  · exact ElementDecl.output_shaped _ _
  · exact ElementDecl.pseudo_shaped _ _ _
  · exact ElementDecl.operator_shaped _ _ _ _ _
  · exact ElementDecl.flowPart_shaped _ _

theorem claim_consistent (h : d.Consistent) {e : ElementDecl} (he : e.Shaped) :
    (d.claim e).Consistent := by
  by_cases hok : d.error = none
  · by_cases hname : e.name ∈ d.graph.elementNames
    · rw [claim_of_taken h hok hname]
      exact ⟨h.coherent, h.table, h.distinct⟩
    · rw [claim_of_free h hok hname]
      refine ⟨FlowGraph.add_coherent h.coherent he, ?_, ?_⟩
      · show d.names ++ _ = (d.graph.add e).elements.map _
        rw [FlowGraph.elements_add, List.map_append, h.table]
        rfl
      · show ((d.graph.add e).elements.map (·.name)).Nodup
        rw [FlowGraph.elements_add, List.map_append, List.nodup_append]
        refine ⟨h.distinct, List.nodup_singleton _, fun n hn m hm heq => hname ?_⟩
        have hm : m = e.name := List.mem_singleton.1 hm
        rw [← hm, ← heq]
        exact hn
  · have hsome : d.error.isSome = true := Option.isSome_iff_ne_none.2 hok
    rw [claim, if_pos hsome]
    exact h

theorem connect_consistent (h : d.Consistent) (source target : String) :
    (d.connect source target).Consistent := by
  rw [connect]
  split
  · exact h
  · split
    case h_1 u v _ =>
      have helems := FlowGraph.elements_connect d.graph u v
      refine ⟨FlowGraph.connect_coherent h.coherent u v, ?_, ?_⟩
      · show d.names = (d.graph.connect u v).elements.map _
        rw [helems, h.table]
      · show ((d.graph.connect u v).elements.map (·.name)).Nodup
        rw [helems]
        exact h.distinct
    case h_2 => exact ⟨h.coherent, h.table, h.distinct⟩

theorem apply_consistent (h : d.Consistent) (step : Step) : (d.apply step).Consistent := by
  cases he : step.decl? d.type with
  | some e =>
    rw [apply_of_decl he]
    exact claim_consistent h (decl?_shaped he)
  | none =>
    cases step with
    | connect source target => exact connect_consistent h source target
    | _ => cases he

theorem applyAll_consistent (h : d.Consistent) (steps : List Step) :
    (d.applyAll steps).Consistent := by
  induction steps generalizing d with
  | nil => exact h
  | cons step steps ih => exact ih (apply_consistent h step)

theorem type_apply (d : Draft) (step : Step) : (d.apply step).type = d.type := by
  have hclaim : ∀ e, (d.claim e).type = d.type := fun e => by
    unfold claim
    split
    · rfl
    · split <;> rfl
  cases step with
  | connect source target =>
    simp only [apply, connect]
    split
    · rfl
    · split <;> rfl
  | _ => exact hclaim _

/-- A step that fails, or that comes after a mistake, leaves the mistake behind and nothing else. -/
theorem apply_of_error_after {e : DraftError} (he : (d.apply step).error = some e) :
    d.apply step = { d with error := some e } := by
  have hclaim : ∀ x, (d.claim x).error = some e → d.claim x = { d with error := some e } := by
    intro x hx
    unfold claim at hx ⊢
    by_cases hsome : d.error.isSome = true
    · rw [if_pos hsome] at hx ⊢
      rw [← hx]
    · rw [if_neg hsome] at hx ⊢
      split at hx
      case isTrue htaken => rw [if_pos htaken, ← hx]
      case isFalse => exact absurd (by rw [hx]; rfl) hsome
  cases step with
  | connect source target =>
    simp only [apply, connect] at he ⊢
    by_cases hsome : d.error.isSome = true
    · rw [if_pos hsome] at he ⊢
      rw [← he]
    · rw [if_neg hsome] at he ⊢
      cases hboth : d.resolveBoth source target with
      | ok ports =>
        rw [hboth] at he
        exact absurd (show d.error.isSome = true by rw [show d.error = some e from he]; rfl) hsome
      | error e' =>
        rw [hboth] at he
        exact congrArg (fun error => { d with error }) he
  | _ => exact hclaim _ he

theorem finish_eq_error_iff {e : DraftError} : d.finish = .error e ↔ d.error = some e := by
  unfold finish
  cases d.error <;> simp

theorem finish_eq_ok_iff {g : FlowGraph} : d.finish = .ok g ↔ d.error = none ∧ d.graph = g := by
  unfold finish
  cases d.error <;> simp

end Steps

/-! ## Sequences of steps -/

variable {d : Draft}

theorem applyAll_of_error {e : DraftError} (he : d.error = some e) (steps : List Step) :
    d.applyAll steps = d := by
  induction steps with
  | nil => rfl
  | cons step steps ih => rw [applyAll, List.foldl_cons, apply_of_error he, ← applyAll, ih]

/-- Either all steps are done, or the draft stays as the steps before the first failing one left it,
apart from the mistake. -/
theorem applyAll_spec (h : d.Consistent) (hok : d.error = none) (steps : List Step) :
    ((d.applyAll steps).error = none ∧ AllDone d.type d.graph steps (d.applyAll steps).graph) ∨
      ∃ before step after e, steps = before ++ step :: after ∧ (d.applyAll before).error = none ∧
        AllDone d.type d.graph before (d.applyAll before).graph ∧
        Done d.type (d.applyAll before).graph step (.error e) ∧
        d.applyAll steps = { d.applyAll before with error := some e } := by
  induction steps generalizing d with
  | nil => exact .inl ⟨hok, .nil d.graph⟩
  | cons step steps ih =>
    have hdone := done_apply h hok step
    cases hf : (d.apply step).finish with
    | error e =>
      rw [hf] at hdone
      have he := finish_eq_error_iff.1 hf
      refine .inr ⟨[], step, steps, e, rfl, hok, .nil d.graph, hdone, ?_⟩
      rw [applyAll, List.foldl_cons, ← applyAll, applyAll_of_error he, apply_of_error_after he]
      rfl
    | ok k =>
      rw [hf] at hdone
      obtain ⟨hok', rfl⟩ := finish_eq_ok_iff.1 hf
      have ih := ih (apply_consistent h step) hok'
      rw [type_apply] at ih
      rcases ih with ⟨hall, hrest⟩ | ⟨before, bad, after, e, rfl, hall, hrest, hbad, heq⟩
      · exact .inl ⟨hall, .cons hdone hrest⟩
      · exact .inr ⟨step :: before, bad, after, e, rfl, hall, .cons hdone hrest, hbad, heq⟩

theorem Meant.mem_ports {g : FlowGraph} {direction : Direction} {reference : String} {p : PortId}
    (h : Meant g direction reference (.ok p)) :
    ∃ x ∈ g.elements, p ∈ (x.portsOn direction).map (·.id) := by
  generalize hr : Except.ok p = r at h
  cases h <;> cases hr
  case single x p hx hp => exact ⟨x, hx, by rw [hp]; exact List.mem_singleton_self _⟩
  case port x port p hx _ _ hp =>
    exact ⟨x, hx, List.mem_map.2 ⟨p, List.mem_of_find?_eq_some hp, rfl⟩⟩

theorem connections_connect_of_meant {g : FlowGraph} {source target : String} {u v : PortId}
    (hu : Meant g .output source (.ok u)) (hv : Meant g .input target (.ok v)) :
    (g.connect u v).connections =
      if { source := u, target := v } ∈ g.connections then g.connections
      else g.connections ++ [{ source := u, target := v }] := by
  have hout : g.isOutputPort u = true := FlowGraph.isOutputPort_iff.2 hu.mem_ports
  have hin : g.isInputPort v = true := FlowGraph.isInputPort_iff.2 hv.mem_ports
  rw [FlowGraph.connect, FlowGraph.canConnect, hout, hin]
  by_cases hmem : { source := u, target := v } ∈ g.connections <;> simp [hmem]

/-- A connection that is refused leaves the graph and the table alone. -/
theorem connect_of_error {source target : String} {e : DraftError}
    (he : (d.connect source target).finish = .error e) :
    (d.connect source target).graph = d.graph ∧ (d.connect source target).names = d.names := by
  have heq : d.apply (.connect source target) = { d with error := some e } :=
    apply_of_error_after (finish_eq_error_iff.1 he)
  rw [show d.connect source target = { d with error := some e } from heq]
  exact ⟨rfl, rfl⟩

/-- A connection that is made is one between the ports that the references mean. -/
theorem connect_of_ok (h : d.Consistent) {source target : String} {k : FlowGraph}
    (hk : (d.connect source target).finish = .ok k) :
    ∃ u v, Meant d.graph .output source (.ok u) ∧ Meant d.graph .input target (.ok v) ∧
      k.ids = d.graph.ids ∧ k.elements = d.graph.elements ∧
      k.connections =
        if { source := u, target := v } ∈ d.graph.connections then d.graph.connections
        else d.graph.connections ++ [{ source := u, target := v }] := by
  have hok : d.error = none := by
    by_contra hne
    obtain ⟨e, he⟩ := Option.ne_none_iff_exists'.1 hne
    have hsame := apply_of_error he (.connect source target)
    rw [show d.connect source target = d from hsame] at hk
    exact hne (finish_eq_ok_iff.1 hk).1
  have hdone : Done d.type d.graph (.connect source target) (.ok k) := (done_iff h hok).2 hk
  cases hdone with
  | declared he => cases he
  | @joined _ _ u v hu hv =>
    exact ⟨u, v, hu, hv, FlowGraph.ids_connect _ _ _, FlowGraph.elements_connect _ _ _,
      connections_connect_of_meant hu hv⟩

/-- A draft ends with the mistake of the first step that fails, or with its graph.  From that step
on neither the graph nor the table changes; at every moment the names of the elements differ and
the table finds what the graph finds; and a connecting step adds its connection or nothing. -/
theorem applyAll_sticky (type : String) (steps : List Step) :
    let d := (start type).applyAll steps
    d.graph.elementNames.Nodup ∧ (∀ name, d.id? name = d.graph.find? name) ∧
      ((d.finish = .ok d.graph ∧ AllDone type .empty steps d.graph) ∨
        ∃ before step after e, steps = before ++ step :: after ∧ d.finish = .error e ∧
          AllDone type .empty before d.graph ∧ Done type d.graph step (.error e) ∧
          d.graph = ((start type).applyAll before).graph ∧
          d.names = ((start type).applyAll before).names) ∧
      ∀ source target,
        (∀ e, (d.connect source target).finish = .error e →
          (d.connect source target).graph = d.graph ∧
            (d.connect source target).names = d.names) ∧
        ∀ k, (d.connect source target).finish = .ok k →
          ∃ u v, Meant d.graph .output source (.ok u) ∧ Meant d.graph .input target (.ok v) ∧
            k.ids = d.graph.ids ∧ k.elements = d.graph.elements ∧
            k.connections =
              if { source := u, target := v } ∈ d.graph.connections then d.graph.connections
              else d.graph.connections ++ [{ source := u, target := v }] := by
  intro d
  have h : d.Consistent := applyAll_consistent (start_consistent type) steps
  refine ⟨h.distinct, h.id?_eq_find?, ?_, fun source target => ⟨fun e he => ?_, fun k hk => ?_⟩⟩
  · rcases applyAll_spec (start_consistent type) rfl steps with
      ⟨hok, hall⟩ | ⟨before, step, after, e, hsteps, -, hall, hbad, heq⟩
    · exact .inl ⟨finish_eq_ok_iff.2 ⟨hok, rfl⟩, hall⟩
    · have hgraph : d.graph = ((start type).applyAll before).graph := by
        show ((start type).applyAll steps).graph = _
        rw [heq]
      have hnames : d.names = ((start type).applyAll before).names := by
        show ((start type).applyAll steps).names = _
        rw [heq]
      rw [← hgraph] at hall hbad
      exact .inr ⟨before, step, after, e, hsteps, finish_eq_error_iff.2 (congrArg Draft.error heq),
        hall, hbad, hgraph, hnames⟩
  · exact connect_of_error he
  · exact connect_of_ok h hk

/-- A name with a dot is taken for an element first; a step behind a mistake has no effect. -/
example :
    let d := (start "Record").applyAll
      [.input "a" none, .pseudo "a.out" none .stage, .output "b" none, .connect "a.out" "b.in",
        .connect "a.none" "b", .input "c" none]
    d.error = some (.unknownPort "a" "none" .output) ∧ d.id? "c" = none ∧
      d.graph.connections = [{ source := 2, target := 3 }] := by
  decide +kernel

end Draft
end FlowPlan
