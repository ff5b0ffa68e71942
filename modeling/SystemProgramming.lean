import SystemProgramming.Lib.DoublyLinked
import SystemProgramming.Lib.Runs
import SystemProgramming.Lib.Fallible
import SystemProgramming.Lib.Incremental
import SystemProgramming.Lib.SinglyLinked
import SystemProgramming.Lib.Ledger
import SystemProgramming.Lib.Descriptors
import SystemProgramming.Lib.ByteBuffer
import SystemProgramming.UserFs.Operations
import SystemProgramming.UserFs.BlockList
import SystemProgramming.UserFs.Chain
import SystemProgramming.UserFs.Table
import SystemProgramming.UserFs.Invariant
import SystemProgramming.UserFs.Namespace
import SystemProgramming.UserFs.Access
import SystemProgramming.UserFs.Resize
import SystemProgramming.UserFs.Consistency
import SystemProgramming.UserFs.Isolation
import SystemProgramming.UserFs.Overwrite
import SystemProgramming.UserFs.Leftover
import SystemProgramming.UserFs.Stream
import SystemProgramming.UserFs.Permission
import SystemProgramming.UserFs.ZeroFill
import SystemProgramming.UserFs.Sizes
import SystemProgramming.UserFs.SizeLimit
import SystemProgramming.UserFs.Coverage
import SystemProgramming.UserFs.Ownership
import SystemProgramming.UserFs.FileSystem
import SystemProgramming.UserFs.Refinement
import SystemProgramming.Shell.Grammar
import SystemProgramming.Shell.Segments
import SystemProgramming.Shell.Parser
import SystemProgramming.Shell.TokenStream
import SystemProgramming.Shell.Syntax
import SystemProgramming.Shell.Line
import SystemProgramming.Shell.Faithful
import SystemProgramming.Shell.Recovery
import SystemProgramming.Shell.Assertions
import SystemProgramming.Shell.Render
import SystemProgramming.Shell.Session
import SystemProgramming.Shell.Feed
import SystemProgramming.Shell.Main
import SystemProgramming.Shell.Execute
import SystemProgramming.Shell.ExitStatus
import SystemProgramming.Shell.Child
import SystemProgramming.Shell.Plumbing
import SystemProgramming.Shell.Wiring
import SystemProgramming.Shell.PipeEnds
import SystemProgramming.Chat.Frame
import SystemProgramming.Chat.Server
import SystemProgramming.Chat.Decoding
import SystemProgramming.Chat.InputBuffer
import SystemProgramming.ThreadPool.State
import SystemProgramming.ThreadPool.Step
import SystemProgramming.ThreadPool.Accounting
import SystemProgramming.ThreadPool.Limits
import SystemProgramming.ThreadPool.Detach
import SystemProgramming.ThreadPool.Growth
import SystemProgramming.ThreadPool.Order
import SystemProgramming.Lib.DoublePrecision
import SystemProgramming.ThreadPool.Deadline
import SystemProgramming.Lib.WaitSet
import SystemProgramming.ThreadPool.Signals
import SystemProgramming.ThreadPool.Orderly
import SystemProgramming.ThreadPool.Progress
import SystemProgramming.ThreadPool.Completion
import SystemProgramming.Lib.Cooperative
import SystemProgramming.Libcoro.State
import SystemProgramming.Libcoro.List
import SystemProgramming.Libcoro.Invariant
import SystemProgramming.Libcoro.Step
import SystemProgramming.Libcoro.Progress
import SystemProgramming.Libcoro.Scheduler
import SystemProgramming.Libcoro.Refinement
import SystemProgramming.Libcoro.Contracts
import SystemProgramming.Libcoro.Switches
import SystemProgramming.Libcoro.Fairness
import SystemProgramming.Lib.InPlace
import SystemProgramming.Lib.KWayMerge
import SystemProgramming.FileSort.State
import SystemProgramming.FileSort.Program
import SystemProgramming.FileSort.Contract
import SystemProgramming.FileSort.Quicksort
import SystemProgramming.FileSort.Coroutine
import SystemProgramming.FileSort.Main
import SystemProgramming.FileSort.WorkTime
import SystemProgramming.Lib.Lines
import SystemProgramming.Chat.Client
import SystemProgramming.Chat.ClientLines
import SystemProgramming.Chat.Arrays
import SystemProgramming.FileSort.Merge
import SystemProgramming.Lib.Census
import SystemProgramming.HeapHelp.State
import SystemProgramming.HeapHelp.Step
import SystemProgramming.HeapHelp.Records
import SystemProgramming.HeapHelp.Blocks
