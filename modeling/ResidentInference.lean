import ResidentInference.KVCapacity
import ResidentInference.KVCoverage
import ResidentInference.SpecDecode
import ResidentInference.BlockSizing
import ResidentInference.Scheduler
import ResidentInference.SchedulerRuns
import ResidentInference.SparseKV
import ResidentInference.SparseSelection
import ResidentInference.KVOwnership
import ResidentInference.Runtime
import ResidentInference.SchedulerErasure
import ResidentInference.SchedulerResults
import ResidentInference.Speculation
import ResidentInference.DecodeStep
import ResidentInference.RuntimeRuns
import ResidentInference.Residency
import ResidentInference.Completion
import ResidentInference.SerialOutput
import ResidentInference.OutputEquivalence
import ResidentInference.TokenMachine
import ResidentInference.KVAdmission
import ResidentInference.Admission
import ResidentInference.TieredCache
import ResidentInference.Compression
import ResidentInference.TieredReads
import ResidentInference.Device.Stages
import ResidentInference.Device.VerifyCommit
import ResidentInference.Device.Megakernel
import ResidentInference.Device.Baseline
import ResidentInference.Device.Selection
import ResidentInference.Device.Gather
import ResidentInference.Device.Pipeline
import ResidentInference.Device.MegakernelBlocks
import ResidentInference.Device.Acceptance
import ResidentInference.Device.BlockSizing
import ResidentInference.Device.DraftSlices
import ResidentInference.Device.PipelineBlocks
import ResidentInference.Device.TraceReplay
import ResidentInference.Device.TraceAccounting
import ResidentInference.Device.TraceService
import ResidentInference.Device.ReplayCompletion
import ResidentInference.EvictionLoop
import ResidentInference.TieredCapacity
import ResidentInference.KVHeadroom
import ResidentInference.Headroom
import ResidentInference.CommittedTokens
import ResidentInference.DraftDiscard
import ResidentInference.KVOverlap
import ResidentInference.TraceLog
import ResidentInference.Sessions
import ResidentInference.Rounds
import ResidentInference.Calls
import ResidentInference.TieredHomes
import ResidentInference.TieredAccounts
import ResidentInference.Device.CommitCoverage
import ResidentInference.Device.CommitMetrics
import ResidentInference.KVCalls
import ResidentInference.KVReservation
import ResidentInference.Recency
import ResidentInference.KVUses
import ResidentInference.KVIsolation
import ResidentInference.TraceFigures
import ResidentInference.KVPins
import ResidentInference.IdlePins
import ResidentInference.BlockDrafting
import ResidentInference.BlockRuntime
import ResidentInference.BlockAccounts
import ResidentInference.BlockBench
import ResidentInference.ResumedRuns
import ResidentInference.Percentiles
import ResidentInference.DecisionScore
import ResidentInference.Handoffs
import ResidentInference.Device.EndTokens
import ResidentInference.Device.QueueRuns
import ResidentInference.Device.TopK
import ResidentInference.Device.GatherCoverage
import ResidentInference.Device.MovementPlan
import ResidentInference.Device.ResidentScheduler
import ResidentInference.Device.PressureEviction
import ResidentInference.Device.TierRounds
import ResidentInference.PinnedRuns
import ResidentInference.StepCounts
import ResidentInference.ResidencyReport
import ResidentInference.Prefetch
import ResidentInference.Device.BaselineRuns
import ResidentInference.Device.PipelineMetrics
import ResidentInference.Device.MegakernelParts
import ResidentInference.RuntimeClock
import ResidentInference.PageCounts
import ResidentInference.SteadyBlocks
import ResidentInference.SteadyTimes
import ResidentInference.BenchRecords
