import Libseff.TransitionRuns
import Libseff.ChaseLevSteps
import Libseff.ChaseLevInvariant
import Libseff.ChaseLevPush
import Libseff.ChaseLevSafety
import Libseff.ChaseLevDeque
import Libseff.TokioSteps
import Libseff.TokioInvariant
import Libseff.TokioPush
import Libseff.TokioQueue
import Libseff.TokioSafety
import Libseff.TokioDelivery
import Libseff.ActorMailbox
import Libseff.ActorCounters
import Libseff.ActorDelivery
import Libseff.ActorExactlyOnce
import Libseff.EffectCells
import Libseff.EffectHandlers
import Libseff.StackSegments
import Libseff.SegmentLists
import Libseff.SegmentRelease
import Libseff.SegmentRuns
import Libseff.AtomicObjects
import Libseff.LockedQueue
import Libseff.LockedQueueSections
import Libseff.LockedQueueSim
import Libseff.LockedQueueOwner
import Libseff.LockedQueueLinear
import Libseff.Scheduler
import Libseff.SchedulerPlaces
import Libseff.SchedulerMoves
import Libseff.SchedulerOwner
import Libseff.SchedulerRuns
import Libseff.SchedulerCounter
import Libseff.ShallowHandlers
import Libseff.CoroutineMachine
import Libseff.CoroutineRuns
import Libseff.CoroutineSim
import Libseff.CoroutineRefine
import Libseff.CoroutineHandlers
import Libseff.CoroutineContexts
import Libseff.ActorCapacity
import Libseff.GeneratedIds
import Libseff.TokioCalls
import Libseff.LockedQueueCalls
import Libseff.QueueEquivalence
import Libseff.MailboxFifo
import Libseff.EffectSets
import Libseff.EffectSetRuns
import Libseff.NetCalls
import Libseff.HttpResponse
import Libseff.HttpResponseBounds
import Libseff.SegmentLimits
import Libseff.SegmentBlocks
import Libseff.SegmentBlockRuns
import Libseff.ResumeGuards
import Libseff.StackGrowth
import Libseff.CoroutineStacks
import Libseff.SyscallWrappers
import Libseff.SegmentChains
import Libseff.StackGrowthRuns
import Libseff.SyscallWrapperRuns
import Libseff.ByteMemory
import Libseff.MorestackMachine
import Libseff.MorestackFrames
import Libseff.MorestackCalls
import Libseff.NetResults
import Libseff.NetBuffers
import Libseff.NetSendAll
import Libseff.CircularArrayGrowth
import Libseff.StructLayout
import Libseff.Declarations
import Libseff.DeclarationLayout
import Libseff.InsertionRoom
import Libseff.SegmentBounds
import Libseff.SchedulerTermination
import Libseff.TaskLives
import Libseff.TaskHistories
import Libseff.TaskAnswers
import Libseff.LockedQueueMoves
import Libseff.LockedScheduler
import Libseff.LockedSchedulerFrames
import Libseff.LockedSchedulerSim
import Libseff.LockedSchedulerCalls
import Libseff.LockedSchedulerRuns
import Libseff.LockedSchedulerTasks
import Libseff.SpecObjects
import Libseff.ChaseLevHistories
import Libseff.ChaseLevOwner
import Libseff.ChaseLevLinear
import Libseff.LockedQueueProgress
import Libseff.TokioLinear
import Libseff.LockedSchedulerTermination
import Libseff.ThreadHandlers
import Libseff.ThreadContexts
import Libseff.TaskCoroutines
import Libseff.TaskContexts
import Libseff.CallFrames
import Libseff.CoroutineBacktraces
import Libseff.MorestackBacktraces
