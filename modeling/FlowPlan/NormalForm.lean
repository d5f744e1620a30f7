import FlowPlan.Certificate
import FlowPlan.NormalForm.Checkpoints
import FlowPlan.NormalForm.Flat
import FlowPlan.NormalForm.Identities

/-!
The normal form of a flow graph, from which stages can be read off.

Five steps establish it, each run once: parts are flattened, checkpoints are inserted, map sides
are inserted, shared identities are split, and the identities that are no map side are taken out.
-/

namespace FlowPlan

/-- How often each step was applied. -/
structure NormalizationCounts where
  partsInlined : Nat
  checkpointsInserted : Nat
  identitiesInserted : Nat
  identitiesSplit : Nat
  identitiesRemoved : Nat
deriving DecidableEq, Repr

namespace NormalizationCounts

def zero : NormalizationCounts := ⟨0, 0, 0, 0, 0⟩

end NormalizationCounts

namespace FlowGraph

/-- Bring a graph into normal form. -/
def normalize (g : FlowGraph) : FlowGraph × NormalizationCounts :=
  let (g, partsInlined) := g.flatten
  let (g, checkpointsInserted) := g.insertCheckpoints
  let (g, identitiesInserted) := g.insertIdentities
  let (g, identitiesSplit) := g.splitIdentities
  let (g, identitiesRemoved) := g.reduceIdentities
  (g, { partsInlined, checkpointsInserted, identitiesInserted, identitiesSplit,
        identitiesRemoved })

/-! ## What the normal form promises -/

def isFlat (g : FlowGraph) : Bool := !g.hasFlowParts

/-- No identity has several incoming and several outgoing connections. -/
def identitiesAreSplit (g : FlowGraph) : Bool :=
  g.identities.all fun e => (g.incoming e).length ≤ 1 || (g.outgoing e).length ≤ 1

/-- Every identity is a map side. -/
def identitiesAreMaps (g : FlowGraph) : Bool := g.identities.all g.isMapBody

/-- No shuffle reads materialized data directly. -/
def shufflesReadMaps (g : FlowGraph) : Bool :=
  (g.idsWhere (·.isShuffleBoundary)).all fun e =>
    (g.predecessors e).all fun p => !g.isStageBoundary p

/-- Every stage head reads materialized data only. -/
def headsReadMaterialized (g : FlowGraph) : Bool :=
  (g.idsWhere (·.isStageHead)).all fun e => (g.predecessors e).all g.isStageBoundary

def normalFormCertificate (g : FlowGraph) : Certificate :=
  ⟨[("N1_flat", g.isFlat),
    ("N2_identities_split", g.identitiesAreSplit),
    ("N3_identities_minimal", g.identitiesAreMaps),
    ("N4_shuffle_fed_by_map", g.shufflesReadMaps),
    ("N5_stage_heads_materialized", g.headsReadMaterialized)]⟩

end FlowGraph
end FlowPlan
