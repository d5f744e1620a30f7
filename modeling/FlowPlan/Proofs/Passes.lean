import FlowPlan.Compilation.Run
import Mathlib.Data.List.Basic
import Mathlib.Tactic.IntervalCases

/-!
How the passes of a compilation follow each other.

`Goes` has a case for each thing that can come next in a run: no pass is left, a pass stops the run,
or a pass has run and the next one may.  What a run keeps, logs and leaves out is proved by
induction on it, and nothing else opens the recursion over the passes.
-/

namespace FlowPlan

/-! ## Passes in order -/

namespace Pass

theorem getElem?_all {i : Nat} {p : Pass} : all[i]? = some p ↔ i = p.rank := by
  constructor
  · intro h
    have hi : i < 9 := (List.getElem?_eq_some_iff.1 h).1
    interval_cases i <;> cases h <;> rfl
  · rintro rfl
    cases p <;> rfl

theorem length_before {before after : List Pass} {p : Pass} (h : before ++ p :: after = all) :
    before.length = p.rank := by
  have hp : all[before.length]? = some p := by
    rw [← h, List.getElem?_append_right (Nat.le_refl _), Nat.sub_self]
    rfl
  exact getElem?_all.1 hp

/-- The first passes are those of low rank. -/
theorem mem_take_all {n : Nat} {p : Pass} : p ∈ all.take n ↔ p.rank < n := by
  constructor
  · intro h
    obtain ⟨i, hi⟩ := List.mem_iff_getElem?.1 h
    rw [List.getElem?_take] at hi
    split at hi
    · rwa [← getElem?_all.1 hi]
    · cases hi
  · intro h
    refine List.mem_of_getElem? (i := p.rank) ?_
    rw [List.getElem?_take_of_lt h]
    exact getElem?_all.2 rfl

theorem required_eq (p : Pass) : p.required = all.take (p.rank + 1) := by
  cases p <;> decide +kernel

theorem required_prefix (p : Pass) : p.required <+: all :=
  p.required_eq ▸ List.take_prefix _ _

end Pass

namespace Compilation

variable {c c' : Compilation} {arrival : Arrival} {options : CompilerOptions} {ps : List Pass}
  {trace : List (Pass × List Diagnostic)}

/-! ## Runs -/

/-- A compilation after a pass, with what the pass reported. -/
def next (arrival : Arrival) (options : CompilerOptions) (c : Compilation) (p : Pass) :
    Compilation :=
  (c.runPass arrival options p).1.record (c.runPass arrival options p).2

theorem graph_next (p : Pass) :
    (next arrival options c p).graph = (c.runPass arrival options p).1.graph := rfl

theorem stageGraph_next (p : Pass) :
    (next arrival options c p).stageGraph = (c.runPass arrival options p).1.stageGraph := rfl

theorem processors_next (p : Pass) :
    (next arrival options c p).processors = (c.runPass arrival options p).1.processors := rfl

/-- A pass reported an error. -/
def failed (entry : Pass × List Diagnostic) : Bool := entry.2.any (·.isError)

/-- An error that ends the run. -/
def Stops (entry : Pass × List Diagnostic) : Prop :=
  entry.1.rank ≤ Pass.buildStageGraph.rank ∧ failed entry = true

theorem stops_iff {entry : Pass × List Diagnostic} :
    Stops entry ↔ (failed entry && !isDeferring entry.1) = true := by
  obtain ⟨p, ds⟩ := entry
  have hdefer : p.rank ≤ Pass.buildStageGraph.rank ↔ isDeferring p = false := by
    cases p <;> decide
  rw [Stops, hdefer, Bool.and_eq_true, Bool.not_eq_true', and_comm]

/-- A pass with what it reports. -/
def entryOf (arrival : Arrival) (options : CompilerOptions) (c : Compilation) (p : Pass) :
    Pass × List Diagnostic := (p, (c.runPass arrival options p).2)

/-- From a compilation, passes run one by one, leave a trace, and end in a compilation. -/
inductive Goes (arrival : Arrival) (options : CompilerOptions) :
    Compilation → List Pass → List (Pass × List Diagnostic) → Compilation → Prop
  /-- No pass is left. -/
  | done (c : Compilation) : Goes arrival options c [] [] c
  /-- A pass stops the run. -/
  | stop {c : Compilation} {p : Pass} {ps : List Pass} (h : Stops (entryOf arrival options c p)) :
    Goes arrival options c (p :: ps) [entryOf arrival options c p] (next arrival options c p)
  /-- A pass has run, and the next one may. -/
  | go {c c' : Compilation} {p : Pass} {ps : List Pass} {trace : List (Pass × List Diagnostic)}
    (h : ¬ Stops (entryOf arrival options c p))
    (rest : Goes arrival options (next arrival options c p) ps trace c') :
    Goes arrival options c (p :: ps) (entryOf arrival options c p :: trace) c'

/-- The first pass of a trace that failed. -/
def firstFailure? (trace : List (Pass × List Diagnostic)) : Option Pass :=
  (trace.find? failed).map (·.1)

theorem next_log (arrival : Arrival) (options : CompilerOptions) (c : Compilation) (p : Pass) :
    (next arrival options c p).diagnostics = c.diagnostics ++ (entryOf arrival options c p).2 ∧
      (next arrival options c p).hasError
        = (c.hasError || failed (entryOf arrival options c p)) := by
  have hkept : (c.runPass arrival options p).1.diagnostics = c.diagnostics ∧
      (c.runPass arrival options p).1.hasError = c.hasError := by
    cases p <;> simp only [runPass, applyStep, and_self] <;> split <;> exact ⟨rfl, rfl⟩
  exact ⟨congrArg (· ++ _) hkept.1, congrArg (· || _) hkept.2⟩

theorem runPasses_goes (arrival : Arrival) (options : CompilerOptions) (c : Compilation)
    (failure : Option Pass) (ps : List Pass) :
    Goes arrival options c ps (runPasses arrival options c failure ps).trace
        (runPasses arrival options c failure ps).result ∧
      (runPasses arrival options c failure ps).failure
        = failure.or (firstFailure? (runPasses arrival options c failure ps).trace) := by
  induction ps generalizing c failure with
  | nil => exact ⟨.done c, (Option.or_none).symm⟩
  | cons p ps ih =>
    have hfirst (trace : List (Pass × List Diagnostic)) :
        firstFailure? (entryOf arrival options c p :: trace)
          = (if failed (entryOf arrival options c p) then some p else none).or
            (firstFailure? trace) := by
      rw [firstFailure?, List.find?_cons]
      cases failed (entryOf arrival options c p) <;> rfl
    by_cases h : Stops (entryOf arrival options c p)
    · have hrun : runPasses arrival options c failure (p :: ps)
          = ⟨next arrival options c p, [entryOf arrival options c p],
            failure.or (if failed (entryOf arrival options c p) then some p else none)⟩ :=
        if_pos (stops_iff.1 h)
      rw [hrun]
      exact ⟨.stop h, by rw [hfirst]; exact congrArg failure.or (Option.or_none).symm⟩
    · have hrun : runPasses arrival options c failure (p :: ps)
          = let rest := runPasses arrival options (next arrival options c p)
              (failure.or (if failed (entryOf arrival options c p) then some p else none)) ps
            { rest with trace := entryOf arrival options c p :: rest.trace } :=
        if_neg fun hstops => h (stops_iff.2 hstops)
      rw [hrun]
      obtain ⟨hgoes, hfailure⟩ := ih (next arrival options c p)
        (failure.or (if failed (entryOf arrival options c p) then some p else none))
      exact ⟨.go h hgoes, by rw [hfirst, ← Option.or_assoc]; exact hfailure⟩

namespace Goes

theorem isPrefix (h : Goes arrival options c ps trace c') : trace.map (·.1) <+: ps := by
  induction h with
  | done => exact List.prefix_refl []
  | stop => exact ⟨_, rfl⟩
  | go _ _ ih => exact (List.prefix_cons_inj _).2 ih

/-- The passes that ran each worked on what the one before it left. -/
theorem result_eq (h : Goes arrival options c ps trace c') :
    c' = (trace.map (·.1)).foldl (next arrival options) c := by
  induction h with
  | done => rfl
  | stop => rfl
  | go _ _ ih => exact ih

theorem log_eq (h : Goes arrival options c ps trace c') :
    c'.diagnostics = c.diagnostics ++ trace.flatMap (·.2) ∧
      c'.hasError = (c.hasError || trace.any failed) := by
  induction h with
  | done c => exact ⟨(List.append_nil _).symm, (Bool.or_false _).symm⟩
  | @stop c p ps _ =>
    obtain ⟨hdiagnostics, herror⟩ := next_log arrival options c p
    rw [hdiagnostics, herror, List.flatMap_singleton, List.any_cons, List.any_nil, Bool.or_false]
    exact ⟨rfl, rfl⟩
  | @go c c' p ps trace _ _ ih =>
    obtain ⟨hdiagnostics, herror⟩ := next_log arrival options c p
    rw [ih.1, ih.2, hdiagnostics, herror, List.append_assoc, Bool.or_assoc, List.flatMap_cons,
      List.any_cons]
    exact ⟨rfl, rfl⟩

/-- Each entry is what a pass reports on what the ones before it left. -/
theorem entry_eq (h : Goes arrival options c ps trace c')
    {before after : List (Pass × List Diagnostic)} {entry : Pass × List Diagnostic}
    (heq : trace = before ++ entry :: after) :
    entry = entryOf arrival options ((before.map (·.1)).foldl (next arrival options) c)
      entry.1 := by
  induction h generalizing before with
  | done => cases before <;> cases heq
  | stop =>
    cases before with
    | nil => exact (List.cons.inj heq).1 ▸ rfl
    | cons b before => cases before <;> cases (List.cons.inj heq).2
  | go _ _ ih =>
    cases before with
    | nil => exact (List.cons.inj heq).1 ▸ rfl
    | cons b before =>
      obtain ⟨rfl, htail⟩ := List.cons.inj heq
      exact ih htail

/-- What a pass keeps is kept to the end. -/
theorem keeps {P : Compilation → Prop} (h : Goes arrival options c ps trace c')
    (hstep : ∀ c p, P c → P (next arrival options c p)) (hc : P c) : P c' := by
  induction h with
  | done => exact hc
  | stop => exact hstep _ _ hc
  | go _ _ ih => exact ih (hstep _ _ hc)

/-- What stops a run is the last of its trace. -/
theorem last_of_stops (h : Goes arrival options c ps trace c')
    {before after : List (Pass × List Diagnostic)} {entry : Pass × List Diagnostic}
    (heq : trace = before ++ entry :: after) (hstops : Stops entry) : after = [] := by
  induction h generalizing before with
  | done => cases before <;> cases heq
  | stop =>
    cases before with
    | nil => exact (List.cons.inj heq).2.symm
    | cons b before => cases before <;> cases (List.cons.inj heq).2
  | go hgo _ ih =>
    cases before with
    | nil =>
      obtain ⟨rfl, -⟩ := List.cons.inj heq
      exact absurd hstops hgo
    | cons b before => exact ih (List.cons.inj heq).2

/-- A run that does not end with its passes was stopped. -/
theorem complete_or_stopped (h : Goes arrival options c ps trace c') :
    trace.map (·.1) = ps ∨ ∃ entry ∈ trace.getLast?, Stops entry := by
  induction h with
  | done => exact .inl rfl
  | stop h => exact .inr ⟨_, rfl, h⟩
  | @go c c' p ps trace _ _ ih =>
    refine ih.imp (congrArg (p :: ·)) fun ⟨entry, hlast, hstops⟩ => ⟨entry, ?_, hstops⟩
    rw [List.getLast?_cons, Option.mem_def.1 hlast]
    rfl

/-- A run whose first failure is validation ended with it. -/
theorem trace_of_invalid (h : Goes arrival options c ps trace c') (hps : ps <+: Pass.all)
    (hinvalid : firstFailure? trace = some .validate) : trace.map (·.1) = [.validate] := by
  obtain ⟨⟨p, ds⟩, hfind, rfl⟩ := Option.map_eq_some_iff.1 hinvalid
  obtain ⟨hfailed, before, after, heq, -⟩ := List.find?_eq_some_iff_append.1 hfind
  obtain rfl := h.last_of_stops heq ⟨Nat.zero_le _, hfailed⟩
  -- Validation is the first of all passes, so nothing ran before it.
  obtain ⟨rest, hrest⟩ := h.isPrefix.trans hps
  rw [heq, List.map_append, List.append_assoc] at hrest
  have hlength : (before.map (·.1)).length = 0 := Pass.length_before hrest
  rw [heq, List.map_append, List.eq_nil_of_length_eq_zero hlength]
  rfl

end Goes

/-! ## Runs without errors -/

/-- Where no pass fails, each has run on what the one before it left, and none reported an error. -/
theorem runPasses_of_no_failure {ps : List Pass}
    (h : (runPasses arrival options c none ps).failure = none) :
    (runPasses arrival options c none ps).result = ps.foldl (next arrival options) c ∧
      ∀ before p after, ps = before ++ p :: after →
        ∀ d ∈ ((before.foldl (next arrival options) c).runPass arrival options p).2,
          d.isError = false := by
  obtain ⟨hgoes, hfailure⟩ := runPasses_goes arrival options c none ps
  rw [h, Option.none_or, eq_comm, firstFailure?, Option.map_eq_none_iff,
    List.find?_eq_none] at hfailure
  have hall : (runPasses arrival options c none ps).trace.map (·.1) = ps :=
    hgoes.complete_or_stopped.resolve_right fun ⟨entry, hlast, hstops⟩ =>
      hfailure entry (List.mem_of_getLast? hlast) hstops.2
  refine ⟨by rw [hgoes.result_eq, hall], fun before p after heq d hd => ?_⟩
  obtain ⟨earlier, rest, htrace, rfl, hrest⟩ := List.map_eq_append_iff.1 (hall.trans heq)
  obtain ⟨entry, later, rfl, rfl, -⟩ := List.map_eq_cons_iff.1 hrest
  have hentry := hfailure entry (htrace ▸ List.mem_append_right _ List.mem_cons_self)
  rw [hgoes.entry_eq htrace] at hentry
  exact Bool.eq_false_iff.2 fun herror => hentry (List.any_eq_true.2 ⟨d, hd, herror⟩)

/-- A run in which no pass reports anything does not fail. -/
theorem failure_of_quiet (h : ∀ before p after, ps = before ++ p :: after →
      ((before.foldl (next arrival options) c).runPass arrival options p).2 = []) :
    (runPasses arrival options c none ps).failure = none := by
  obtain ⟨hgoes, hfailure⟩ := runPasses_goes arrival options c none ps
  rw [hfailure, Option.none_or, firstFailure?, Option.map_eq_none_iff, List.find?_eq_none]
  intro entry hentry herror
  obtain ⟨before, after, htrace⟩ := List.append_of_mem hentry
  obtain ⟨rest, hrest⟩ := hgoes.isPrefix
  have hquiet := h (before.map (·.1)) entry.1 (after.map (·.1) ++ rest) (by
    rw [← hrest, htrace, List.map_append, List.append_assoc]
    rfl)
  rw [hgoes.entry_eq htrace, failed, entryOf, hquiet] at herror
  cases herror

/-! ## Diagnostics of all stages -/

section Stages

variable {α : Type} {analyze : Stage × Nat → α × List Diagnostic} {stages : List Stage}
  {d : Diagnostic}

theorem mem_collect : d ∈ arrival.collect ((stages.zipIdx.map analyze).map (·.2)) ↔
    ∃ place ∈ stages.zipIdx, d ∈ (analyze place).2 := by
  rw [(arrival.complete _).mem_iff, List.map_map, ← List.flatMap_def, List.mem_flatMap]
  rfl

/-- The diagnostics of all stages are those of each. -/
theorem mem_analyzeAll : d ∈ (analyzeAll arrival analyze stages).2 ↔
    ∃ place ∈ stages.zipIdx, d ∈ (analyze place).2 :=
  (List.mergeSort_perm _ _).mem_iff.trans mem_collect

end Stages

end Compilation
end FlowPlan
