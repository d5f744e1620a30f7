import FlowPlan.Proofs.Edits
import FlowPlan.Proofs.Passes
import FlowPlan.Proofs.WellFormed
import Mathlib.Data.List.Basic

/-!
The order in which the diagnostics of stages arrive makes no difference.

`sortDiagnostics` looks at the element's number, the code and the message of a diagnostic and is
stable, so it forgets the order of arrival only where these determine the rest.  They do in the
analyses of stages: every diagnostic there is an error about an element of the flow, and has a hint
that the element and the code decide.  From this `arrival_irrelevant` draws that a compilation comes
to the same whichever stage is heard of first.
-/

namespace FlowPlan

/-! ## What the analyses report -/

/-- An error about an element of the flow, with the hint that goes with the element and the code. -/
def Diagnostic.IsReport (g : FlowGraph) (hint : Element → Code → Option String) (d : Diagnostic) :
    Prop :=
  ∃ x code message, g.element? x.id = some x ∧
    d = { errorAt code { id := x.id, name := x.name } message with hint := hint x code }

variable {g : FlowGraph} {hint : Element → Code → Option String}

/-- The hint of a shuffle fault, which its code decides. -/
def ShuffleFault.hintFor (code : Code) : Option String :=
  if code = .noRendezvous then (ShuffleFault.noRendezvous "").hint? else none

theorem ShuffleFault.hint?_eq (f : ShuffleFault) : f.hint? = hintFor f.code := by
  cases f <;> rfl

theorem ShuffleFault.diagnostic_isReport {x : Element} (hx : g.element? x.id = some x)
    (f : ShuffleFault) :
    (f.diagnostic { id := x.id, name := x.name }).IsReport g fun _ => hintFor :=
  ⟨x, f.code, _, hx, by rw [diagnostic, hint?_eq]⟩

/-- The hint of an element without a processor, which names its kind of work. -/
def UnservedElement.hintFor (x : Element) : Option String :=
  some s!"register a processor named `{x.workKind}`"

theorem FlowGraph.element?_id {i : ElementId} {x : Element} (h : g.element? i = some x) :
    g.element? x.id = some x := by
  rwa [(FlowGraph.mem_of_element?_eq_some h).2]

theorem analyzeShuffle_reports {sg : StageGraph} {stage : Stage} {processors : ProcessorRegistry}
    {classes : DataClassRegistry} {d : Diagnostic}
    (hd : d ∈ (analyzeShuffle sg stage processors classes).2) :
    d.IsReport sg.flow fun _ => ShuffleFault.hintFor := by
  by_cases hreduce : stage.hasReduce = true
  · rw [analyzeShuffle_of_hasReduce hreduce] at hd
    obtain ⟨⟨ref, segments, faults⟩, hfound, hfault⟩ := List.mem_flatMap.1 hd
    obtain ⟨f, -, rfl⟩ := List.mem_map.1 hfault
    obtain ⟨⟨x, i⟩, hplace, heq⟩ := List.mem_map.1 hfound
    obtain ⟨j, -, hx⟩ := List.mem_filterMap.1 (List.fst_mem_of_mem_zipIdx hplace)
    obtain ⟨rfl, -⟩ := Prod.mk.inj heq
    exact f.diagnostic_isReport (FlowGraph.element?_id hx)
  · rw [analyzeShuffle, if_neg hreduce] at hd
    cases hd

theorem analyzeStage_reports {sg : StageGraph} {stage : Stage} {shuffle : Option ShuffleModel}
    {processors : ProcessorRegistry} {d : Diagnostic}
    (hd : d ∈ (analyzeStage sg stage shuffle processors).2) :
    d.IsReport sg.flow fun x _ => UnservedElement.hintFor x := by
  have hd : d ∈ (StageModel.unserved sg stage processors).map (·.diagnostic) := by
    rw [analyzeStage] at hd
    split at hd
    · cases hd
    · exact hd
  obtain ⟨u, hu, rfl⟩ := List.mem_map.1 hd
  obtain ⟨x, hx, hserved⟩ := List.mem_filterMap.1 hu
  obtain ⟨i, -, hi⟩ := List.mem_filterMap.1 hx
  split at hserved
  · cases hserved
  · cases hserved
    exact ⟨x, _, _, FlowGraph.element?_id hi, rfl⟩

/-! ## Sorting -/

namespace Compilation

/-- The order of diagnostics is that of their element, code and message, one after the other. -/
theorem compareDiagnostics_eq : compareDiagnostics =
    compareLex (compareLex (compareOn fun d => d.element.map (·.id))
      (compareOn fun d => d.code.map (·.text))) (compareOn (·.message)) := rfl

instance : Std.TransCmp compareDiagnostics := by
  rw [compareDiagnostics_eq]
  infer_instance

theorem compareDiagnostics_eq_eq {a b : Diagnostic} (h : compareDiagnostics a b = .eq) :
    a.element.map (·.id) = b.element.map (·.id) ∧ a.code.map (·.text) = b.code.map (·.text) ∧
      a.message = b.message := by
  rw [compareDiagnostics_eq] at h
  obtain ⟨hplace, hmessage⟩ := Ordering.then_eq_eq.1 h
  obtain ⟨helement, hcode⟩ := Ordering.then_eq_eq.1 hplace
  exact ⟨Std.LawfulEqCmp.eq_of_compare helement, Std.LawfulEqCmp.eq_of_compare hcode,
    Std.LawfulEqCmp.eq_of_compare hmessage⟩

/-- Two reports that are not told apart by the order are one. -/
theorem eq_of_compare_eq {a b : Diagnostic} (ha : a.IsReport g hint) (hb : b.IsReport g hint)
    (h : compareDiagnostics a b = .eq) : a = b := by
  obtain ⟨x, code, message, hx, rfl⟩ := ha
  obtain ⟨y, code', message', hy, rfl⟩ := hb
  obtain ⟨helement, hcode, hmessage⟩ := compareDiagnostics_eq_eq h
  obtain rfl : x = y := by
    have hid : x.id = y.id := Option.some.inj helement
    rw [hid, hy] at hx
    exact (Option.some.inj hx).symm
  obtain rfl : code = code' := by
    cases code
    cases code'
    exact congrArg Code.mk (Option.some.inj hcode)
  obtain rfl : message = message' := hmessage
  rfl

theorem sortDiagnostics_perm (ds : List Diagnostic) : (sortDiagnostics ds).Perm ds :=
  List.mergeSort_perm _ _

/-- One diagnostic may stand in front of the other. -/
def sortsBefore (a b : Diagnostic) : Bool := compareDiagnostics a b ≠ .gt

theorem sortsBefore_iff {a b : Diagnostic} :
    sortsBefore a b = true ↔ (compareDiagnostics a b).isLE = true := by
  rw [sortsBefore, decide_eq_true_iff, Ordering.isLE_iff_ne_gt]

theorem sortsBefore_trans (a b d : Diagnostic) (hab : sortsBefore a b = true)
    (hbd : sortsBefore b d = true) : sortsBefore a d = true :=
  sortsBefore_iff.2 (Std.TransCmp.isLE_trans (sortsBefore_iff.1 hab) (sortsBefore_iff.1 hbd))

theorem sortsBefore_total (a b : Diagnostic) : (sortsBefore a b || sortsBefore b a) = true := by
  have hswap : compareDiagnostics b a = (compareDiagnostics a b).swap := Std.OrientedCmp.eq_swap
  rw [Bool.or_eq_true, sortsBefore_iff, sortsBefore_iff, hswap]
  cases compareDiagnostics a b <;> decide

theorem sortDiagnostics_sorted (ds : List Diagnostic) :
    (sortDiagnostics ds).Pairwise fun a b => (compareDiagnostics a b).isLE :=
  (List.pairwise_mergeSort sortsBefore_trans sortsBefore_total ds).imp sortsBefore_iff.1

/-- Reports are put into one order, whatever order they come in. -/
theorem sortDiagnostics_eq_of_perm {ds ds' : List Diagnostic} (hperm : ds.Perm ds')
    (hreports : ∀ d ∈ ds', d.IsReport g hint) : sortDiagnostics ds = sortDiagnostics ds' := by
  have hsame : (sortDiagnostics ds).Perm (sortDiagnostics ds') :=
    ((sortDiagnostics_perm ds).trans hperm).trans (sortDiagnostics_perm ds').symm
  refine hsame.eq_of_pairwise (fun a b ha hb hab hba => ?_) (sortDiagnostics_sorted ds)
    (sortDiagnostics_sorted ds')
  refine eq_of_compare_eq (hreports a ?_) (hreports b ?_) (Std.OrientedCmp.isLE_antisymm hab hba)
  · exact hperm.subset ((sortDiagnostics_perm ds).subset ha)
  · exact (sortDiagnostics_perm ds').subset hb

/-! ## Compilations -/

/-- What the analyses of shuffles report, stage after stage. -/
def shuffleReports (sg : StageGraph) (processors : ProcessorRegistry)
    (dataClasses : DataClassRegistry) : List Diagnostic :=
  sg.stages.flatMap fun stage => (FlowPlan.analyzeShuffle sg stage processors dataClasses).2

/-- What the analyses of stages report, stage after stage. -/
def stageReports (sg : StageGraph) (shuffles : Nat → Option ShuffleModel)
    (processors : ProcessorRegistry) : List Diagnostic :=
  sg.stages.zipIdx.flatMap fun (stage, i) => (analyzeStage sg stage (shuffles i) processors).2

theorem shuffleReports_report {sg : StageGraph} {processors : ProcessorRegistry}
    {dataClasses : DataClassRegistry} :
    ∀ d ∈ shuffleReports sg processors dataClasses,
      d.IsReport sg.flow fun _ => ShuffleFault.hintFor := by
  intro d hd
  obtain ⟨stage, -, hstage⟩ := List.mem_flatMap.1 hd
  exact analyzeShuffle_reports hstage

theorem stageReports_report {sg : StageGraph} {shuffles : Nat → Option ShuffleModel}
    {processors : ProcessorRegistry} :
    ∀ d ∈ stageReports sg shuffles processors,
      d.IsReport sg.flow fun x _ => UnservedElement.hintFor x := by
  intro d hd
  obtain ⟨place, -, hplace⟩ := List.mem_flatMap.1 hd
  exact analyzeStage_reports hplace

theorem analyzeAll_eq {α : Type} {analyze : Stage × Nat → α × List Diagnostic}
    (hreports : ∀ place, ∀ d ∈ (analyze place).2, d.IsReport g hint) (arrival arrival' : Arrival)
    (stages : List Stage) :
    analyzeAll arrival analyze stages = analyzeAll arrival' analyze stages := by
  have hperm := (arrival.complete ((stages.zipIdx.map analyze).map (·.2))).trans
    (arrival'.complete _).symm
  have hall : ∀ d ∈ arrival'.collect ((stages.zipIdx.map analyze).map (·.2)),
      d.IsReport g hint := by
    intro d hd
    obtain ⟨place, -, hmem⟩ := mem_collect.1 hd
    exact hreports place d hmem
  exact congrArg (Prod.mk _) (sortDiagnostics_eq_of_perm hperm hall)

variable (arrival arrival' : Arrival) (parallel parallel' certify : Bool)

theorem runPass_eq (c : Compilation) (p : Pass) :
    c.runPass arrival ⟨parallel, certify⟩ p = c.runPass arrival' ⟨parallel', certify⟩ p := by
  cases p with
  | analyzeShuffle =>
    simp only [runPass]
    cases c.stageGraph with
    | none => rfl
    | some sg =>
      simp only [analyzeAll_eq (fun _ _ => analyzeShuffle_reports)
        (CompilerOptions.arrival ⟨parallel, certify⟩ arrival)
        (CompilerOptions.arrival ⟨parallel', certify⟩ arrival')]
  | analyzeStages =>
    simp only [runPass]
    cases c.stageGraph with
    | none => rfl
    | some sg =>
      simp only [analyzeAll_eq (fun _ _ => analyzeStage_reports)
        (CompilerOptions.arrival ⟨parallel, certify⟩ arrival)
        (CompilerOptions.arrival ⟨parallel', certify⟩ arrival')]
  | _ => rfl

theorem runPasses_eq (c : Compilation) (failure : Option Pass) (ps : List Pass) :
    runPasses arrival ⟨parallel, certify⟩ c failure ps
      = runPasses arrival' ⟨parallel', certify⟩ c failure ps := by
  induction ps generalizing c failure with
  | nil => rfl
  | cons p ps ih => simp only [runPasses, runPass_eq arrival arrival' parallel parallel', ih]

/-- In whatever order the diagnostics of stages arrive, they are sorted into the list that one stage
after the other leaves; and neither a pass nor a whole compilation depends on that order. -/
theorem arrival_irrelevant :
    (∀ (sg : StageGraph) (processors : ProcessorRegistry) (dataClasses : DataClassRegistry)
      (ds : List Diagnostic), ds.Perm (shuffleReports sg processors dataClasses) →
        sortDiagnostics ds = sortDiagnostics (shuffleReports sg processors dataClasses)) ∧
      (∀ (sg : StageGraph) (shuffles : Nat → Option ShuffleModel) (processors : ProcessorRegistry)
        (ds : List Diagnostic), ds.Perm (stageReports sg shuffles processors) →
          sortDiagnostics ds = sortDiagnostics (stageReports sg shuffles processors)) ∧
      ∀ (arrival arrival' : Arrival) (parallel parallel' certify : Bool),
        (∀ (c : Compilation) (p : Pass),
          c.runPass arrival ⟨parallel, certify⟩ p = c.runPass arrival' ⟨parallel', certify⟩ p) ∧
        ∀ (c : Compilation) (goal : Pass),
          runWith arrival ⟨parallel, certify⟩ goal c
            = runWith arrival' ⟨parallel', certify⟩ goal c :=
  ⟨fun _ _ _ _ hperm => sortDiagnostics_eq_of_perm hperm shuffleReports_report,
    fun _ _ _ _ hperm => sortDiagnostics_eq_of_perm hperm stageReports_report,
    fun arrival arrival' parallel parallel' certify =>
      ⟨fun c p => runPass_eq arrival arrival' parallel parallel' certify c p,
        fun c goal => runPasses_eq arrival arrival' parallel parallel' certify c none
          goal.required⟩⟩

/-- The last stage is heard of first. -/
def lastFirst : Arrival :=
  ⟨fun ds => ds.flatten.reverse, fun ds => ds.flatten.reverse_perm⟩

/-- Two stages, each of which shuffles into an operator that no processor runs. -/
def idle : StageGraph :=
  let work (name : String) : ElementDecl :=
    .operator name { name, kind := "fold", resources := [] } [.plain "in" "Record"]
      [.plain "out" "Record"] .shuffle
  { flow := FlowGraph.assemble [work "first", work "second"] [],
    blocks := [⟨0, .reduce, [0], [0], [1]⟩, ⟨1, .reduce, [1], [2], [3]⟩],
    input := 0, output := 1, stages := [⟨1, [], [0]⟩, ⟨2, [], [1]⟩], connections := [] }

/-- The reports of the two stages differ in what order they arrive in, and not once sorted. -/
theorem idle_either_way :
    (shuffleReports idle .empty .empty).reverse ≠ shuffleReports idle .empty .empty ∧
      (stageReports idle (fun _ => none) .empty).reverse
        ≠ stageReports idle (fun _ => none) .empty ∧
      sortDiagnostics (shuffleReports idle .empty .empty).reverse
        = sortDiagnostics (shuffleReports idle .empty .empty) ∧
      sortDiagnostics (stageReports idle (fun _ => none) .empty).reverse
        = sortDiagnostics (stageReports idle (fun _ => none) .empty) ∧
      let c := { start .empty .empty .empty with stageGraph := some idle }
      c.runPass lastFirst ⟨true, true⟩ .analyzeStages
        = c.runPass .inTurn ⟨false, true⟩ .analyzeStages := by
  obtain ⟨hshuffles, hstages, hruns⟩ := arrival_irrelevant
  refine ⟨?_, ?_, ?_, ?_, (hruns lastFirst .inTurn true false true).1 _ .analyzeStages⟩
  · decide +kernel
  · decide +kernel
  · exact hshuffles idle .empty .empty _ (List.reverse_perm _)
  · exact hstages idle (fun _ => none) .empty _ (List.reverse_perm _)

end Compilation
end FlowPlan
