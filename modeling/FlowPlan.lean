import FlowPlan.Command.Directory
import FlowPlan.Graph.Text
import FlowPlan.Main
import FlowPlan.Proofs.Neighbours
import FlowPlan.Proofs.Edits
import FlowPlan.Proofs.LocalChanges
import FlowPlan.Proofs.Rewriting
import FlowPlan.Proofs.Carrying
import FlowPlan.Proofs.Dataflow
import FlowPlan.Proofs.Flattening
import FlowPlan.Proofs.Collapsing
import FlowPlan.Proofs.MapSides
import FlowPlan.Proofs.ShuffleFeeds
import FlowPlan.Proofs.Blocks
import FlowPlan.Proofs.Routes
import FlowPlan.Proofs.Passes
import FlowPlan.Proofs.Runs
import FlowPlan.Proofs.DisjointSets
import FlowPlan.Proofs.Precedence
import FlowPlan.Proofs.StageClasses
import FlowPlan.Proofs.StageOrder
import FlowPlan.Proofs.SharedIdentities
import FlowPlan.Proofs.CycleSearch
import FlowPlan.Proofs.Levels
import FlowPlan.Proofs.Chains
import FlowPlan.Proofs.StageElements
import FlowPlan.Proofs.Materialization
import FlowPlan.Proofs.Regions
import FlowPlan.Proofs.CheckpointCuts
import FlowPlan.Proofs.IdentityPasses
import FlowPlan.Proofs.ClosedReduceSides
import FlowPlan.Proofs.NormalForms
import FlowPlan.Proofs.Threading
import FlowPlan.Proofs.Renormalization
import FlowPlan.Proofs.Unfolding
import FlowPlan.Proofs.Nets
import FlowPlan.Proofs.Relocation
import FlowPlan.Proofs.UnitUnfolding
import FlowPlan.Proofs.WireUnfolding
import FlowPlan.Proofs.Inlining
import FlowPlan.Proofs.LegalGraphs
import FlowPlan.Proofs.Coverage
import FlowPlan.Proofs.FragmentGraphs
import FlowPlan.Proofs.Sinks
import FlowPlan.Proofs.Histories
import FlowPlan.Proofs.Stores
import FlowPlan.Proofs.StoredChanges
import FlowPlan.Proofs.StoredPasses
import FlowPlan.Proofs.StoredUnfolding
import FlowPlan.Proofs.StoredHistories
import FlowPlan.Proofs.LegalPasses
import FlowPlan.Proofs.StagePlans
import FlowPlan.Proofs.StageMembers
import FlowPlan.Proofs.SideComponents
import FlowPlan.Proofs.BlockConnections
import FlowPlan.Proofs.FragmentChains
import FlowPlan.Proofs.StageUnits
import FlowPlan.Proofs.Arrivals
import FlowPlan.Proofs.Outcomes
import FlowPlan.Proofs.Rendezvous
import FlowPlan.Proofs.SinkGroups
import FlowPlan.Proofs.CyclePaths
import FlowPlan.Proofs.Segments
import FlowPlan.Proofs.ShuffleModels
import FlowPlan.Proofs.SegmentSources
import FlowPlan.Proofs.Drafts
import FlowPlan.Proofs.Sites
import FlowPlan.Proofs.FaultReports
import FlowPlan.Proofs.CheckpointCounts
import FlowPlan.Proofs.Declarations
import FlowPlan.Proofs.InlinedElements
import FlowPlan.Proofs.Rewiring
import FlowPlan.Proofs.Catalogs
import FlowPlan.Proofs.DraftRuns
import FlowPlan.Proofs.Manifests
import FlowPlan.Proofs.JsonText
import FlowPlan.Proofs.Registries
import FlowPlan.Proofs.DotReading
import FlowPlan.Proofs.Drawings
import FlowPlan.Proofs.FlowDiagrams
import FlowPlan.Proofs.StageDiagrams
import FlowPlan.Proofs.Lookups
import FlowPlan.Proofs.BoundarySearches
import FlowPlan.Proofs.CountedOrder
