import HeapSummary.AccessPath.Context
import HeapSummary.Bounding.Cut
import HeapSummary.Bounding.Depth
import HeapSummary.Bounding.RootGroup
import HeapSummary.Bounding.SharedField
import HeapSummary.Monitor.Pool
import HeapSummary.Options.Setting
import HeapSummary.Proofs.Outcome
import HeapSummary.Summary
import HeapSummary.Proofs.CallGraph
import HeapSummary.Proofs.Postorder
import HeapSummary.Proofs.Dispatch
import HeapSummary.Proofs.Program
import HeapSummary.Proofs.PlainPropagation
import HeapSummary.Proofs.Reach
import HeapSummary.Proofs.GatedPropagation
import HeapSummary.Proofs.Store
import HeapSummary.Proofs.CandidateGraph
import HeapSummary.Proofs.Search
import HeapSummary.Proofs.Edits
import HeapSummary.Proofs.Passes
import HeapSummary.Proofs.Absorption
import HeapSummary.Proofs.Summary
import HeapSummary.Proofs.InterfaceBound
import HeapSummary.Proofs.RootedInterface
import HeapSummary.Proofs.Origins
import HeapSummary.Proofs.Seeding
import HeapSummary.Proofs.OriginPartition
import HeapSummary.Proofs.AliasClasses
import HeapSummary.Proofs.AliasLabels
import HeapSummary.Proofs.PassesSucceed
import HeapSummary.Proofs.Faultless
import HeapSummary.Proofs.Cancellation
import HeapSummary.Proofs.PrunedCalls
import HeapSummary.Proofs.SharedFields
import HeapSummary.Proofs.CutInterface
import HeapSummary.Proofs.PathTable
import HeapSummary.Proofs.AliasComponents
import HeapSummary.Proofs.JustifiedLabels
import HeapSummary.Proofs.Renaming
import HeapSummary.Proofs.RenamedPasses
import HeapSummary.Proofs.Reports
import HeapSummary.Proofs.Independence
import HeapSummary.Proofs.FinalSize
import HeapSummary.Proofs.SetRegisters
import HeapSummary.Proofs.MergeRuns
import HeapSummary.Proofs.FieldCongruence
import HeapSummary.Proofs.Distances
import HeapSummary.Proofs.BorderMerge
import HeapSummary.Proofs.ImmutableCuts
import HeapSummary.Proofs.RootRegions
import HeapSummary.Proofs.OwnCandidates
import HeapSummary.Proofs.PrimitiveStarts
import HeapSummary.Proofs.UnreachableCuts
import HeapSummary.Proofs.OpenPaths
import HeapSummary.Proofs.InterfaceCount
import HeapSummary.Proofs.Lookup
import HeapSummary.Proofs.PathSteps
import HeapSummary.Proofs.Numerals
import HeapSummary.Proofs.Settings
