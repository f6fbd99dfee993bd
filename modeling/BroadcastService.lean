import BroadcastService.DoubleRounding
import BroadcastService.WorldSimulation
import BroadcastService.Quorum
import BroadcastService.SetOperation
import BroadcastService.BestEffortBroadcast
import BroadcastService.LatticeAgreement
import BroadcastService.LatticeRound
import BroadcastService.LatticeProjection
import BroadcastService.LatticeRoundSteps
import BroadcastService.LatticeNumbering
import BroadcastService.LatticeCounting
import BroadcastService.LatticeValidity
import BroadcastService.LatticeComparability
import BroadcastService.LatticeRefinement
import BroadcastService.LatticeProgress
import BroadcastService.UnorderedMap
import BroadcastService.UnorderedMapRuns
import BroadcastService.Payload
import BroadcastService.UniformReliableBroadcast
import BroadcastService.UrbLedger
import BroadcastService.UrbIntegrity
import BroadcastService.UrbCounting
import BroadcastService.UrbAgreement
import BroadcastService.CollectionLoop
import BroadcastService.FifoBroadcast
import BroadcastService.FifoDrain
import BroadcastService.FifoDelivery
import BroadcastService.FifoOrder
import BroadcastService.FifoIterator
import BroadcastService.FifoStack
import BroadcastService.TimerService
import BroadcastService.FairLossChannel
import BroadcastService.LossyNetwork
import BroadcastService.ReliableChannel
import BroadcastService.ChannelSteps
import BroadcastService.ChannelInvariant
import BroadcastService.ChannelEvents
import BroadcastService.PerfectLinks
import BroadcastService.RetryTimers
import BroadcastService.SharedBudget
import BroadcastService.ReliableTransport
import BroadcastService.Demultiplexing
import BroadcastService.Misrouting
import BroadcastService.Strand
import BroadcastService.TimerWheel
import BroadcastService.TimerStop
import BroadcastService.RetryCancellation
import BroadcastService.WriteHandler
import BroadcastService.WritePath
import BroadcastService.OutgoingQueue
import BroadcastService.SendBudget
import BroadcastService.ReliableCalls
import BroadcastService.ReliableTimers
import BroadcastService.SendCredits
import BroadcastService.LatticeWire
import BroadcastService.LatticeObject
import BroadcastService.LatticeEntries
import BroadcastService.LatticeAcceptor
import BroadcastService.LatticeProposer
import BroadcastService.LatticeBookkeeping
import BroadcastService.LatticeOpenedRounds
import BroadcastService.UrbWire
import BroadcastService.SizedReader
import BroadcastService.DecodeBounds
import BroadcastService.PerfectLinksApplication
import BroadcastService.GarbageCollection
import BroadcastService.RetryTimeouts
import BroadcastService.FifoApplication
import BroadcastService.LatticeApplication
import BroadcastService.Hosts
import BroadcastService.Futures
import BroadcastService.FutureChain
import BroadcastService.Combinators
import BroadcastService.CombinatorOutcome
import BroadcastService.PointerChain
import BroadcastService.IntrusiveList
import BroadcastService.TaskQueue
import BroadcastService.FiberSuspension
import BroadcastService.FiberMutex
import BroadcastService.FiberWaitGroup
import BroadcastService.ThreadPool
import BroadcastService.MessageCodec
import BroadcastService.TransportDelivery
import BroadcastService.TransportStack
import BroadcastService.FifoAgreement
import BroadcastService.FifoDeployment
import BroadcastService.FifoLogs
import BroadcastService.PerfectLinksLogs
import BroadcastService.EventLoop
import BroadcastService.LatticeNarrowing
import BroadcastService.LatticeDeployment
import BroadcastService.EventLoopStop
import BroadcastService.LatticeLogs
import BroadcastService.CriticalSections
import BroadcastService.SpinLock
import BroadcastService.WakeUps
import BroadcastService.FutureGet
import BroadcastService.ReadHandler
