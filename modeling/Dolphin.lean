import Dolphin.Semantics.Table
import Dolphin.Semantics.Ring
import Dolphin.Semantics.Handshake
import Dolphin.Semantics.Parties
import Dolphin.Semantics.Heap
import Dolphin.Semantics.StaticSchedule
import Dolphin.Semantics.Runs
import Dolphin.Semantics.Calls
import Dolphin.Semantics.Packing
import Dolphin.Semantics.Gathering
import Dolphin.Semantics.Feedback
import Dolphin.Semantics.Largest
import Dolphin.Number.BinaryFloat
import Dolphin.Number.LittleEndian
import Dolphin.Tensor.Mask
import Dolphin.Tensor.Sort
import Dolphin.Tensor.LastWrite
import Dolphin.Tensor.Ragged
import Dolphin.Alloc.SlotPool
import Dolphin.Graph.FindIndex
import Dolphin.Graph.SearchKernel
import Dolphin.Graph.SearchExact
import Dolphin.Graph.TemporalCsr
import Dolphin.Graph.RecentSearch
import Dolphin.Graph.SortedCsr
import Dolphin.Graph.StreamGraph
import Dolphin.Graph.GenGraph
import Dolphin.Graph.CsrFaithful
import Dolphin.Graph.BuiltStream
import Dolphin.Sampler.SamplerGPU
import Dolphin.Sampler.RecentKernel
import Dolphin.Sampler.ParallelSampler
import Dolphin.Sampler.DglBlocks
import Dolphin.Sampler.MfgChain
import Dolphin.Sampler.TsPointers
import Dolphin.Sampler.MergeThreads
import Dolphin.Sampler.CpuLayers
import Dolphin.Sampler.SamplerAgreement
import Dolphin.Sampler.PartMaps
import Dolphin.Sampler.Coverage
import Dolphin.Sampler.BatchCoverage
import Dolphin.Store.SaveBin
import Dolphin.Store.StreamExtract
import Dolphin.Store.StreamExtractExact
import Dolphin.ValidEdge.Slots
import Dolphin.ValidEdge.SlotInvariant
import Dolphin.ValidEdge.SlotReplay
import Dolphin.ValidEdge.GenExpire
import Dolphin.ValidEdge.ExpiredEdges
import Dolphin.ValidEdge.ExpireClosedForm
import Dolphin.ValidEdge.Expiry
import Dolphin.ValidEdge.BlockReads
import Dolphin.ValidEdge.SlotSearches
import Dolphin.Cache.GenPartStream
import Dolphin.Cache.BlockPlans
import Dolphin.Cache.Windows
import Dolphin.Cache.BucketCache
import Dolphin.Cache.Flushes
import Dolphin.Cache.FileNames
import Dolphin.Cache.FlushBookkeeping
import Dolphin.Cache.WindowFiles
import Dolphin.Cache.SavedFeatures
import Dolphin.Cache.BucketCounts
import Dolphin.Cache.FlushInLoop
import Dolphin.Memory.Intervals
import Dolphin.Memory.IntervalBudget
import Dolphin.Memory.UniSimple
import Dolphin.Memory.DiskMemory
import Dolphin.Memory.DiskRows
import Dolphin.Memory.SimplePlan
import Dolphin.Memory.DiskRefinement
import Dolphin.Memory.ReorderMap
import Dolphin.Store.BinSession
import Dolphin.Store.ReadYourWrites
import Dolphin.Store.ConcurrentRead
import Dolphin.Store.SavedRows
import Dolphin.Buffer.PreFetch
import Dolphin.Buffer.FeatBuffer
import Dolphin.Buffer.Epoch
import Dolphin.Buffer.Features
import Dolphin.Buffer.NodeRows
import Dolphin.Buffer.EdgeReorder
import Dolphin.Buffer.Tracking
import Dolphin.Buffer.Lookups
import Dolphin.Buffer.MailBox
import Dolphin.Buffer.LatestMemory
import Dolphin.Buffer.MailDelivery
import Dolphin.Buffer.MailRing
import Dolphin.Buffer.WriteBacks
import Dolphin.Buffer.EpochEnd
import Dolphin.Buffer.SharedTensors
import Dolphin.Buffer.Processes
import Dolphin.Buffer.Async
import Dolphin.Buffer.Interleavings
import Dolphin.Buffer.Extensions
import Dolphin.Buffer.ExtensionSafety
import Dolphin.Buffer.IncreStrategy
import Dolphin.Buffer.IndexCalls
import Dolphin.Buffer.IndexRefinement
import Dolphin.Buffer.DiskEpoch
import Dolphin.Buffer.RowShapes
import Dolphin.Buffer.EdgeMaps
import Dolphin.Eid.CertainNum
import Dolphin.Eid.Cuts
import Dolphin.Eid.AdaptiveSplit
import Dolphin.Eid.ProcessSplit
import Dolphin.Eid.SplitLoops
import Dolphin.Eid.Staleness
import Dolphin.Eid.StalenessBound
import Dolphin.Eid.SplitPartition
import Dolphin.Eid.BatchFile
import Dolphin.Eid.TruncatedFile
import Dolphin.Eid.BatchLoop
import Dolphin.Eid.SpanningEdges
import Dolphin.Train.AsyncSample
import Dolphin.Train.SampleSchedule
import Dolphin.Train.TrainLoop
import Dolphin.Train.BatchUpdates
import Dolphin.Train.Transparency
import Dolphin.Train.Prepared
import Dolphin.Sampler.Neighbourhood
import Dolphin.Sampler.ReNegLink
import Dolphin.Train.FromFiles
import Dolphin.Train.OnDisk
import Dolphin.Train.Datasets
import Dolphin.Train.DatasetFiles
