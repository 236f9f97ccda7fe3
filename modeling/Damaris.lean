import Damaris.Lib.StepSystem
import Damaris.Lib.Fifo
import Damaris.Lib.CombiningTree
import Damaris.Lib.Relay
import Damaris.Lib.BcastProgram
import Damaris.Lib.CriticalSection
import Damaris.Lib.Supersteps
import Damaris.Lib.Words
import Damaris.Lib.PointerSets
import Damaris.Lib.Bytes
import Damaris.Lib.Welford
import Damaris.Lib.KeyedStore
import Damaris.Lib.Peg
import Damaris.Lib.RowMajor
import Damaris.Lib.NestedList
import Damaris.Lib.NestedReader
import Damaris.Util.Manager
import Damaris.Util.Calc
import Damaris.Util.CalcSyntax
import Damaris.Util.CalcGrammar
import Damaris.Util.Descriptors
import Damaris.Comm.Topology
import Damaris.Comm.MPI2Reactor
import Damaris.Comm.SyncBarrier
import Damaris.Comm.SyncProgress
import Damaris.Comm.WaveOrder
import Damaris.Comm.Broadcast
import Damaris.Comm.BroadcastOrder
import Damaris.Comm.Dispatch
import Damaris.Comm.Channel
import Damaris.Comm.RequestTable
import Damaris.Comm.QueueWait
import Damaris.Env.Environment
import Damaris.Data.Block
import Damaris.Data.Variable
import Damaris.Data.BlockIndex
import Damaris.Data.Ranges
import Damaris.Data.BoxLayout
import Damaris.Data.GhostZones
import Damaris.Data.LayoutObservers
import Damaris.Data.LayoutChecks
import Damaris.Data.ScopedNames
import Damaris.Data.GroupTrees
import Damaris.Data.Divisors
import Damaris.Buffer.DataSpace
import Damaris.Buffer.RefCount
import Damaris.Buffer.Destroy
import Damaris.Gc.Process
import Damaris.Gc.GarbageCollector
import Damaris.Buffer.Lending
import Damaris.Buffer.SharedMemorySegment
import Damaris.Buffer.Remove
import Damaris.Buffer.Handles
import Damaris.Buffer.Wakeup
import Damaris.Buffer.BlockingLoop
import Damaris.Buffer.Unsatisfiable
import Damaris.Msg.Signals
import Damaris.Msg.Streams
import Damaris.Client.Client
import Damaris.Action.GroupAction
import Damaris.Action.ActionManager
import Damaris.Server.Handlers
import Damaris.Server.Framing
import Damaris.Server.CommitClear
import Damaris.Server.WriteRoundTrip
import Damaris.Server.CommitNames
import Damaris.Client.RemoteClient
import Damaris.Server.MessageArrays
import Damaris.Server.BlockSizes
import Damaris.Client.StandaloneClient
import Damaris.Client.StandaloneModes
import Damaris.Server.Regions
import Damaris.Server.Iteration
import Damaris.Server.Rounds
import Damaris.Server.Completeness
import Damaris.Server.Receives
import Damaris.Server.Publishing
import Damaris.Server.Cut
import Damaris.Server.AtRest
import Damaris.Server.Residency
import Damaris.Server.Memory
import Damaris.Server.Room
import Damaris.Server.Broadcasts
import Damaris.Storage.Hdf5
import Damaris.Storage.PerCore
import Damaris.Storage.Collective
import Damaris.Storage.IterationIsEmpty
import Damaris.Lib.Numeral
import Damaris.Storage.FileNames
import Damaris.Storage.OutputFiles
import Damaris.Paraview.MeshSections
import Damaris.Paraview.MeshPieces
import Damaris.Paraview.PieceNumbers
import Damaris.Paraview.GridCursor
import Damaris.Visit.DomainLists
import Damaris.Visit.Commands
import Damaris.Model.ConfigBroadcast
import Damaris.Model.ReplaceKeys
import Damaris.Model.KeyOccurrences
import Damaris.Model.KeyReplacement
import Damaris.Model.ModifyModel
import Damaris.Util.Observable
import Damaris.Data.Parameter
import Damaris.Scripts.PyAction
import Damaris.Python.DaskLayout
import Damaris.Scripts.PassData
import Damaris.Python.DaskArray
import Damaris.Python.DaskJobs
import Damaris.Python.DaskStats
import Damaris.Python.DaskLock
import Damaris.Env.StaticManagers
import Damaris.Env.Finalize
import Damaris.Env.Hardware
import Damaris.Main.DamarisFortran
