import HeteroSim.DramParams
import HeteroSim.DramChannel
import HeteroSim.ChannelMachine
import HeteroSim.Timeline
import HeteroSim.BusLaw
import HeteroSim.ActivationLaw
import HeteroSim.BankLaw
import HeteroSim.GroupLaw
import HeteroSim.RefreshLaw
import HeteroSim.DramEngine
import HeteroSim.Effect
import HeteroSim.EngineRuns
import HeteroSim.DramPresets
import HeteroSim.EngineTiming
import HeteroSim.WriteQueueLaw
import HeteroSim.ClusterJob
import HeteroSim.RefusedJob
import HeteroSim.DescriptorIntegrity
import HeteroSim.ArrayWriters
import HeteroSim.Kernels
import HeteroSim.SliceRun
import HeteroSim.StagingLayout
import HeteroSim.ParallelSlices
import HeteroSim.OffloadedJob
import HeteroSim.JobAccounts
import HeteroSim.PostedJobs
import HeteroSim.ExactlyOnce
import HeteroSim.KeywordCalls
import HeteroSim.KeywordSteps
import HeteroSim.KeywordEnds
import HeteroSim.PipelinedLoop
import HeteroSim.LruLaw
import HeteroSim.MoreWays
import HeteroSim.WriteBack
import HeteroSim.RefillTraffic
import HeteroSim.Hierarchy
import HeteroSim.StreamLoops
import HeteroSim.SnitchSsr
import HeteroSim.StreamedGemm
import HeteroSim.StreamedConv
import HeteroSim.QueueRuns
import HeteroSim.SkipAhead
import HeteroSim.AcceptanceLaw
import HeteroSim.QueueAnswers
import HeteroSim.IdleDrain
import HeteroSim.NominalLatency
import HeteroSim.Domination
import HeteroSim.ParetoReport
import HeteroSim.DesignRules
import HeteroSim.FftRadix2
import HeteroSim.CoupledCores
import HeteroSim.MfccKernels
import HeteroSim.MfccSpectrum
import HeteroSim.MfccStreams
import HeteroSim.StreamedMfcc
import HeteroSim.KernelPairs
import HeteroSim.StreamedCalls
import HeteroSim.DeadlineChase
import HeteroSim.ReplanLoop
import HeteroSim.AccessLoop
import HeteroSim.ArrivalOrder
import HeteroSim.HyperBus
import HeteroSim.EngineAnswers
import HeteroSim.AddressMapping
import HeteroSim.BumpAllocator
import HeteroSim.StagedHeap
import HeteroSim.FailureCount
import HeteroSim.FifoServer
import HeteroSim.StoreBuffer
import HeteroSim.RvvGemm
import HeteroSim.MelBands
import HeteroSim.GoldenMfcc
import HeteroSim.AddressNests
import HeteroSim.HitRates
import HeteroSim.IntSpellings
import HeteroSim.DesignSlugs
import HeteroSim.SweepCells
import HeteroSim.ConvAdjoint
import HeteroSim.FlatJson
import HeteroSim.PresetFile
import HeteroSim.Barriers
import HeteroSim.SignIn
import HeteroSim.BarrierLoop
import HeteroSim.Backend
import HeteroSim.BoundedLog
import HeteroSim.JobQueue
import HeteroSim.JobRuns
import HeteroSim.JobHistory
import HeteroSim.JobFates
import HeteroSim.ClusterImage
