import SystemsProjects.Base.Transducer
import SystemsProjects.FileIO.CacheRefinement
import SystemsProjects.Base.LockProgram
import SystemsProjects.Base.TwoPhase
import SystemsProjects.KvStore.Commands
import SystemsProjects.KvStore.DbMap
import SystemsProjects.KvStore.ConcurrentKvStore
import SystemsProjects.KvStore.SequentialRefinement
import SystemsProjects.KvStore.Atomicity
import SystemsProjects.Base.Mutex
import SystemsProjects.KvStore.SimpleKvStore
import SystemsProjects.Base.ByteMemory
import SystemsProjects.Dmalloc.Blocks
import SystemsProjects.Dmalloc.Runs
import SystemsProjects.Dmalloc.NoFalseAlarms
import SystemsProjects.Dmalloc.ReleaseSafety
import SystemsProjects.Snake.Board
import SystemsProjects.Snake.GameSetup
import SystemsProjects.Snake.BoardFormat
import SystemsProjects.Snake.BoardDecoding
import SystemsProjects.Snake.NullCells
import SystemsProjects.Snake.BoardStrings
import SystemsProjects.Snake.Game
import SystemsProjects.Snake.Invariant
import SystemsProjects.WeensyOS.Memory
import SystemsProjects.WeensyOS.VmIter
import SystemsProjects.Base.RadixTree
import SystemsProjects.WeensyOS.Kernel
import SystemsProjects.WeensyOS.PageTree
import SystemsProjects.WeensyOS.Lookup
import SystemsProjects.WeensyOS.Pages
import SystemsProjects.WeensyOS.TableSteps
import SystemsProjects.WeensyOS.Mapping
import SystemsProjects.WeensyOS.Holdings
import SystemsProjects.WeensyOS.PageLoop
import SystemsProjects.WeensyOS.TableWalk
import SystemsProjects.WeensyOS.Teardown
import SystemsProjects.WeensyOS.TableIteration
import SystemsProjects.WeensyOS.IteratorMoves
import SystemsProjects.WeensyOS.AddressSpace
import SystemsProjects.WeensyOS.PageAlloc
import SystemsProjects.Base.LockOrder
import SystemsProjects.KvStore.DeadlockFreedom
import SystemsProjects.KvStore.Linearizability
import SystemsProjects.KvStore.AllKeysScan
import SystemsProjects.Dmalloc.Accounting
import SystemsProjects.Dmalloc.Diagnosis
import SystemsProjects.Base.Transfer
import SystemsProjects.Net.Socket
import SystemsProjects.Base.ByteFormat
import SystemsProjects.Net.Messages
import SystemsProjects.Net.Framing
import SystemsProjects.Net.StreamIntegrity
import SystemsProjects.Net.ServerLoop
import SystemsProjects.FileIO.CalmRuns
import SystemsProjects.FileIO.FailureHonesty
import SystemsProjects.FileIO.FileSize
import SystemsProjects.WeensyOS.ExactMap
import SystemsProjects.WeensyOS.FreePages
import SystemsProjects.WeensyOS.Building
import SystemsProjects.WeensyOS.ProcessSetup
import SystemsProjects.WeensyOS.ProgramLoading
import SystemsProjects.WeensyOS.LoadingGaps
import SystemsProjects.WeensyOS.Boot
import SystemsProjects.WeensyOS.NewProcess
import SystemsProjects.WeensyOS.Startup
import SystemsProjects.WeensyOS.AllocPromises
import SystemsProjects.WeensyOS.UserView
import SystemsProjects.WeensyOS.Forking
import SystemsProjects.WeensyOS.ForkLoop
import SystemsProjects.Dmalloc.Layout
import SystemsProjects.Dmalloc.FailureStatistics
import SystemsProjects.Base.EvenSplit
import SystemsProjects.Base.Numerals
import SystemsProjects.KvStore.Shards
import SystemsProjects.KvStore.ShardSplitting
import SystemsProjects.KvStore.KeySpace
import SystemsProjects.Net.NetworkConn
import SystemsProjects.Net.ServerStart
import SystemsProjects.FileIO.MemorySafety
import SystemsProjects.FileIO.ZeroWrite
import SystemsProjects.WeensyOS.Fork
import SystemsProjects.WeensyOS.Steps
import SystemsProjects.WeensyOS.Runs
import SystemsProjects.WeensyOS.ForkResult
import SystemsProjects.WeensyOS.ForkExit
import SystemsProjects.WeensyOS.Isolation
import SystemsProjects.Dmalloc.BaseAlloc
import SystemsProjects.KvStore.MoveCommand
import SystemsProjects.KvStore.ShardMoves
import SystemsProjects.Base.Utf8
import SystemsProjects.Snake.MbStrings
import SystemsProjects.Base.DoublyLinked
import SystemsProjects.Snake.LinkedList
import SystemsProjects.Snake.FoodPlacement
import SystemsProjects.Snake.InitializeGame
import SystemsProjects.Base.Interaction
import SystemsProjects.FileIO.Clients
import SystemsProjects.FileIO.Programs
import SystemsProjects.FileIO.CopyPrograms
import SystemsProjects.FileIO.ReversePrograms
import SystemsProjects.FileIO.Rot13
import SystemsProjects.Base.Strides
import SystemsProjects.FileIO.StrideCat
import SystemsProjects.Dmalloc.DebugHeap
import SystemsProjects.Base.MutexOrder
import SystemsProjects.Base.CriticalSection
import SystemsProjects.Base.Interleaving
import SystemsProjects.KvStore.SimpleMap
import SystemsProjects.Net.Truncated
import SystemsProjects.Net.SimpleClient
import SystemsProjects.Net.ControllerThreads
import SystemsProjects.Net.ControllerShutdown
import SystemsProjects.Net.ServerThreads
import SystemsProjects.Net.ServerSteps
import SystemsProjects.Net.ServerShutdown
import SystemsProjects.Snake.HeapGame
import SystemsProjects.WeensyOS.KernelImage
import SystemsProjects.WeensyOS.CheckedRuns
import SystemsProjects.WeensyOS.MemViewerRuns
