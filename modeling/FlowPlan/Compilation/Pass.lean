/-!
The passes of a compilation, what each needs, and what it establishes.
-/

namespace FlowPlan

inductive Pass
  | validate
  | inlineFlowParts
  | insertCheckpoints
  | insertIdentities
  | splitIdentities
  | reduceIdentities
  | buildStageGraph
  | analyzeShuffle
  | analyzeStages
deriving DecidableEq, Repr

namespace Pass

def all : List Pass :=
  [validate, inlineFlowParts, insertCheckpoints, insertIdentities, splitIdentities,
    reduceIdentities, buildStageGraph, analyzeShuffle, analyzeStages]

def name : Pass → String
  | validate => "validate"
  | inlineFlowParts => "inline_flow_parts"
  | insertCheckpoints => "insert_checkpoints"
  | insertIdentities => "insert_identities"
  | splitIdentities => "split_identities"
  | reduceIdentities => "reduce_identities"
  | buildStageGraph => "build_stage_graph"
  | analyzeShuffle => "analyze_shuffle"
  | analyzeStages => "analyze_stages"

def ofName? (s : String) : Option Pass := all.find? (·.name = s)

/-- What holds after the pass, for the log. -/
def invariants : Pass → String
  | validate => "mandatory ports connected, graph acyclic"
  | inlineFlowParts => "no flow parts remain"
  | insertCheckpoints => "diverging shuffles and stage heads are materialized"
  | insertIdentities => "every map-less transition has an identity"
  | splitIdentities => "N2 identities split per connection pair"
  | reduceIdentities => "N1-N5 obligations verified"
  | buildStageGraph => "P1-P3 obligations verified, stage DAG acyclic"
  | analyzeShuffle => "one model per stage with a reduce side"
  | analyzeStages => "fragments chained, units ordered, sinks grouped"

/-- The passes whose results a pass works on. -/
def inputs : Pass → List Pass
  | validate => []
  | inlineFlowParts => [validate]
  | insertCheckpoints => [inlineFlowParts]
  | insertIdentities => [insertCheckpoints]
  | splitIdentities => [insertIdentities]
  | reduceIdentities => [splitIdentities]
  | buildStageGraph => [reduceIdentities]
  | analyzeShuffle => [buildStageGraph]
  | analyzeStages => [analyzeShuffle]

/-- A pass works only on the results of passes of lower rank. -/
def rank : Pass → Nat
  | validate => 0
  | inlineFlowParts => 1
  | insertCheckpoints => 2
  | insertIdentities => 3
  | splitIdentities => 4
  | reduceIdentities => 5
  | buildStageGraph => 6
  | analyzeShuffle => 7
  | analyzeStages => 8

theorem rank_lt_of_mem_inputs {p q : Pass} (h : q ∈ p.inputs) : q.rank < p.rank := by
  cases p <;> simp [inputs] at h <;> subst h <;> decide

/-- The passes that lead up to a pass, each after those it works on, and the pass itself last. -/
def required (p : Pass) : List Pass :=
  ((p.inputs.attach.flatMap fun ⟨q, _⟩ => q.required) ++ [p]).eraseDups
termination_by p.rank
decreasing_by exact rank_lt_of_mem_inputs (by assumption)

end Pass
end FlowPlan
