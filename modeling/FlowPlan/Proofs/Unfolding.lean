import FlowPlan.Proofs.Flattening
import Mathlib.Data.List.Flatten

/-!
One flow part replaced: which element becomes which, and which port which.

The replacement goes through the nested elements in turn and keeps tables as it goes.  `copiesIn`
lists the elements with their copies, and every table is read off this list.
-/

namespace FlowPlan

/-! ## Tables -/

section Tables

variable {α β : Type} [DecidableEq α]

theorem lookup_of_mem {ps : List (α × β)} (hn : (ps.map (·.1)).Nodup) {a : α} {b : β}
    (h : (a, b) ∈ ps) : ps.lookup a = some b := by
  induction ps with
  | nil => cases h
  | cons p ps ih =>
    obtain ⟨k, v⟩ := p
    rw [List.map_cons, List.nodup_cons] at hn
    rcases List.mem_cons.1 h with heq | hps
    · obtain ⟨rfl, rfl⟩ := Prod.mk.inj heq
      rw [List.lookup_cons_self]
    · have hne : a ≠ k := by
        rintro rfl
        exact hn.1 (List.mem_map.2 ⟨_, hps, rfl⟩)
      rw [List.lookup_cons, beq_eq_false_iff_ne.2 hne]
      exact ih hn.2 hps

theorem lookup_of_not_mem {ps : List (α × β)} {a : α} (h : a ∉ ps.map (·.1)) :
    ps.lookup a = none := by
  rw [List.lookup_eq_none_iff]
  intro p hp
  rw [bne_iff_ne]
  rintro rfl
  exact h (List.mem_map.2 ⟨p, hp, rfl⟩)

/-- Looking up keys in turn gives the values that stand beside them. -/
theorem map_lookup_eq {ps : List (α × α)} (hn : (ps.map (·.1)).Nodup) {as bs : List α}
    (hlen : as.length = bs.length) (hsub : ∀ p ∈ as.zip bs, p ∈ ps) :
    as.map (fun a => (ps.lookup a).getD a) = bs := by
  refine List.ext_getElem (by rw [List.length_map, hlen]) fun i hi hi' => ?_
  rw [List.length_map] at hi
  have hz : i < (as.zip bs).length := by rw [List.length_zip]; omega
  have hmem : (as[i], bs[i]) ∈ ps := by
    rw [← List.getElem_zip (h := hz)]
    exact hsub _ (List.getElem_mem hz)
  rw [List.getElem_map, lookup_of_mem hn hmem, Option.getD_some]

end Tables

/-! ## Declarations -/

/-- An element as it was declared. -/
def Element.decl (e : Element) : ElementDecl :=
  { name := e.name, kind := e.kind, boundary := e.boundary, inputs := FlowGraph.decls e.inputs,
    outputs := FlowGraph.decls e.outputs }

namespace FlowGraph

theorem decl_numbered (g : FlowGraph) (d : ElementDecl) : (g.numbered d).decl = d := by
  rw [Element.decl, decls_inputs_numbered, decls_outputs_numbered]
  rfl

theorem length_inputIds (e : Element) : e.inputIds.length = e.decl.inputs.length := by
  simp [Element.inputIds, Element.decl, decls]

theorem length_outputIds (e : Element) : e.outputIds.length = e.decl.outputs.length := by
  simp [Element.outputIds, Element.decl, decls]

/-! ## Elements and their copies -/

/-- Elements with the copies that they become when they are added to a graph in turn. -/
def copiesIn (part : String) (g : FlowGraph) : List Element → List (Element × Element)
  | [] => []
  | x :: xs => (x, g.numbered (copyOf part x)) :: copiesIn part (g.add (copyOf part x)) xs

variable {part : String} {g inner : FlowGraph} {e x y : Element}

theorem map_fst_copiesIn (part : String) (g : FlowGraph) (xs : List Element) :
    (copiesIn part g xs).map (·.1) = xs := by
  induction xs generalizing g with
  | nil => rfl
  | cons x xs ih => rw [copiesIn, List.map_cons, ih]

theorem decl_of_mem_copiesIn {xs : List Element} (h : (x, y) ∈ copiesIn part g xs) :
    x ∈ xs ∧ y.decl = copyOf part x := by
  induction xs generalizing g with
  | nil => cases h
  | cons x' xs ih =>
    rcases List.mem_cons.1 h with heq | h
    · obtain ⟨rfl, rfl⟩ := Prod.mk.inj heq
      exact ⟨List.mem_cons_self, decl_numbered _ _⟩
    · exact ⟨List.mem_cons_of_mem _ (ih h).1, (ih h).2⟩

/-- The ports of an element and of its copy, one beside the other. -/
def pairedPorts (pair : Element × Element) : List (PortId × PortId) :=
  (if pair.1.isInput then [] else pair.1.inputIds.zip pair.2.inputIds)
    ++ (if pair.1.isOutput then [] else pair.1.outputIds.zip pair.2.outputIds)

def entryPorts (pair : Element × Element) : List PortId :=
  if pair.1.isInput then pair.2.inputIds.take 1 else []

def exitPorts (pair : Element × Element) : List PortId :=
  if pair.1.isOutput then pair.2.outputIds.take 1 else []

/-- What the replacement has put together behind some elements. -/
theorem foldl_step_eq (part : String) (xs : List Element) (s : Unfolding) :
    let t := xs.foldl (Unfolding.step part) s
    let pairs := copiesIn part s.graph xs
    t.graph.elements = s.graph.elements ++ pairs.map (·.2)
      ∧ t.graph.connections = s.graph.connections
      ∧ t.copies = s.copies ++ pairs.flatMap pairedPorts
      ∧ t.entries = s.entries ++ pairs.flatMap entryPorts
      ∧ t.exits = s.exits ++ pairs.flatMap exitPorts := by
  induction xs generalizing s with
  | nil => simp [copiesIn]
  | cons x xs ih =>
    obtain ⟨helems, hconns, hcopies, hentries, hexits⟩ := ih (s.step part x)
    have hgraph : (s.step part x).graph = s.graph.add (copyOf part x) := rfl
    simp only [List.foldl_cons, copiesIn, List.map_cons, List.flatMap_cons]
    rw [hgraph] at helems hcopies hentries hexits
    refine ⟨?_, ?_, ?_, ?_, ?_⟩
    · rw [helems, elements_add, List.append_assoc, List.singleton_append]
    · rw [hconns]
      rfl
    · rw [hcopies, ← List.append_assoc]
      congr 1
      simp only [Unfolding.step, pairedPorts, List.append_assoc]
      rfl
    · rw [hentries, ← List.append_assoc]
      congr 1
      simp only [Unfolding.step, entryPorts, Element.inputIds, List.map_take]
    · rw [hexits, ← List.append_assoc]
      congr 1
      simp only [Unfolding.step, exitPorts, Element.outputIds, List.map_take]

end FlowGraph
end FlowPlan
