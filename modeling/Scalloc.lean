import Scalloc.Lib.ByteMemory
import Scalloc.Lib.Transition
import Scalloc.Lib.Linked
import Scalloc.Base.Globals
import Scalloc.Base.SizeClasses
import Scalloc.Span.BlockStart
import Scalloc.Glue.Memalign
import Scalloc.Glue.AlignedBlock
import Scalloc.Glue.AlignedLarge
import Scalloc.Base.Arena
import Scalloc.Glue.Realloc
import Scalloc.Glue.ReallocPromise
import Scalloc.Heap.State
import Scalloc.Heap.Core
import Scalloc.Heap.System
import Scalloc.Heap.ThreadExit
import Scalloc.Heap.Moves
import Scalloc.Heap.Cores
import Scalloc.Span.Slots
import Scalloc.Span.Conservation
import Scalloc.Heap.View
import Scalloc.Heap.Freed
import Scalloc.Heap.Release
import Scalloc.Heap.Served
import Scalloc.Heap.Acquire
import Scalloc.Heap.Allocate
import Scalloc.Heap.Lifecycle
import Scalloc.Heap.Threads
import Scalloc.Heap.Invariant
import Scalloc.Heap.Integrity
import Scalloc.Heap.EpochWord
import Scalloc.Heap.FreePost
import Scalloc.Span.Interleaved
import Scalloc.Span.Places
import Scalloc.Glue.Dispatch
import Scalloc.Glue.AlignedRoom
import Scalloc.Glue.LargeRequest
import Scalloc.Glue.TagWrite
import Scalloc.Heap.PoolSearch
import Scalloc.Span.LastFree
import Scalloc.Heap.Assertions
import Scalloc.Heap.RingDeque
import Scalloc.Heap.DequeList
import Scalloc.Heap.Shutdown
import Scalloc.Heap.ShutdownRing
import Scalloc.Heap.ShutdownLocks
import Scalloc.Heap.ShutdownInvariant
import Scalloc.Heap.ShutdownThreads
import Scalloc.Heap.ShutdownCore
import Scalloc.Heap.SweepEnds
import Scalloc.Heap.ShutForGood
import Scalloc.Heap.Treiber
import Scalloc.Heap.TreiberSafe
import Scalloc.Glue.Startup
import Scalloc.Heap.AtomicValue
import Scalloc.Heap.Backends
import Scalloc.Heap.GuardedCore
import Scalloc.Span.EpochRuns
import Scalloc.Heap.Sweep
import Scalloc.Heap.KeptBuild
import Scalloc.Heap.StepInvariant
import Scalloc.Heap.StepRuns
import Scalloc.Heap.StepServed
import Scalloc.Glue.Process
import Scalloc.Glue.ProcessInvariant
import Scalloc.Glue.ProcessCalls
import Scalloc.Glue.ProcessRuns
import Scalloc.Heap.Linearizable
import Scalloc.Heap.TreiberHistory
import Scalloc.Heap.Footprint
