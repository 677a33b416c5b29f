import SystemsSuite.Lib.Transition
import SystemsSuite.Lib.Words
import SystemsSuite.Sham.Protocol
import SystemsSuite.Sham.TransferSafety
import SystemsSuite.Sham.Connection
import SystemsSuite.Lib.Program
import SystemsSuite.Lib.RadixTree
import SystemsSuite.Paging.Metadata
import SystemsSuite.Paging.Machine
import SystemsSuite.Paging.Fault
import SystemsSuite.Paging.Exec
import SystemsSuite.Paging.Fork
import SystemsSuite.Paging.Ownership
import SystemsSuite.Paging.OwnedSteps
import SystemsSuite.Paging.Effects
import SystemsSuite.Paging.OwnedExec
import SystemsSuite.Paging.FrameOwnership
import SystemsSuite.Sham.Window
import SystemsSuite.Sham.Accounting
import SystemsSuite.Sham.Wedge
import SystemsSuite.Paging.Lineage
import SystemsSuite.Paging.Bookkeeping
import SystemsSuite.Paging.Growth
import SystemsSuite.Paging.Images
import SystemsSuite.Paging.Offspring
import SystemsSuite.Paging.LineageBooks
import SystemsSuite.Paging.SegmentPermissions
import SystemsSuite.Paging.HeapBreak
import SystemsSuite.Paging.StackGuard
import SystemsSuite.Paging.SizeBound
import SystemsSuite.Paging.Residency
import SystemsSuite.Paging.SwapAccounts
import SystemsSuite.Paging.SwapSlots
import SystemsSuite.Procs.ExecReferences
import SystemsSuite.Procs.FairScheduler
import SystemsSuite.Procs.ExitWait
import SystemsSuite.Procs.WorkConservation
import SystemsSuite.Procs.Dispatch
import SystemsSuite.Bakery.Seating
import SystemsSuite.Bakery.Service
import SystemsSuite.Bakery.Closing
import SystemsSuite.Shell.JobLifetime
import SystemsSuite.Shell.Pipelines
import SystemsSuite.Shell.Foreground
import SystemsSuite.Paging.FailedEviction
import SystemsSuite.Paging.Accesses
import SystemsSuite.Paging.CopyIn
import SystemsSuite.Paging.CopyOut
import SystemsSuite.Paging.Courses
import SystemsSuite.Paging.ImageCourses
import SystemsSuite.Paging.PagerSafety
import SystemsSuite.Paging.FaultProgress
import SystemsSuite.Paging.ClockVictim
import SystemsSuite.Paging.SwapWrites
import SystemsSuite.Shell.Tokenisation
import SystemsSuite.Shell.CommandArrays
import SystemsSuite.Shell.History
import SystemsSuite.Lib.Logged
import SystemsSuite.Sniffer.Decoders
import SystemsSuite.Sniffer.Captured
import SystemsSuite.Sniffer.Views
import SystemsSuite.Sniffer.Payload
import SystemsSuite.Sham.ReceivedBytes
import SystemsSuite.Paging.MetadataMap
import SystemsSuite.Shell.Replay
import SystemsSuite.Paging.EagerExec
import SystemsSuite.Paging.EagerImage
import SystemsSuite.Lib.Numbered
import SystemsSuite.Shell.JobIdentifiers
import SystemsSuite.Lib.Horner
import SystemsSuite.Sham.FileChecksum
import SystemsSuite.Paging.EagerContents
import SystemsSuite.Paging.LazyExec
import SystemsSuite.Paging.SwapNames
import SystemsSuite.Paging.SwapFiles
import SystemsSuite.Paging.MemStat
import SystemsSuite.Paging.Transparency
import SystemsSuite.Lib.Redo
import SystemsSuite.Lib.Fields
import SystemsSuite.Files.Log
import SystemsSuite.Files.CrashRecovery
import SystemsSuite.Files.LogSpace
import SystemsSuite.Files.Pipe
import SystemsSuite.Files.PipeTraffic
import SystemsSuite.Files.PipeWakeups
import SystemsSuite.Lib.Holdings
import SystemsSuite.Files.Inodes
import SystemsSuite.Files.BlockOwnership
import SystemsSuite.Files.FlatFiles
import SystemsSuite.Files.BufferCache
import SystemsSuite.Files.CacheCoherence
import SystemsSuite.Files.CacheBlocks
import SystemsSuite.Lib.Chains
import SystemsSuite.User.Malloc
import SystemsSuite.User.FreeList
import SystemsSuite.User.MallocRuns
