import PintosLabs.Machine
import PintosLabs.SectorStore
import PintosLabs.BufferCache
import PintosLabs.SafeSequence
import PintosLabs.Banker
import PintosLabs.BankerScan
import PintosLabs.BankerGrant
import PintosLabs.BankerSafety
import PintosLabs.FreeMap
import PintosLabs.IndexTree
import PintosLabs.Inode
import PintosLabs.SectorAlloc
import PintosLabs.IndexAllocate
import PintosLabs.InodeTree
import PintosLabs.FileBytes
import PintosLabs.FreeMapFile
import PintosLabs.InodeWrite
import PintosLabs.InodeRelease
import PintosLabs.FileSystem
import PintosLabs.SectorOwners
import PintosLabs.FileRuns
import PintosLabs.DiskFormat
import PintosLabs.GrowingFile
import PintosLabs.SectorOwnership
import PintosLabs.WriteGuarantees
import PintosLabs.LinkedNodes
import PintosLabs.PagingFrames
import PintosLabs.PagingPartition
import PintosLabs.ContiguousMemory
import PintosLabs.MemoryPartition
import PintosLabs.DemandPaging
import PintosLabs.PageReplacement
import PintosLabs.MinOptimal
import PintosLabs.ListSort
import PintosLabs.Kernel
import PintosLabs.KernelShared
import PintosLabs.ReadyList
import PintosLabs.LockOwners
import PintosLabs.KernelRuns
import PintosLabs.DonationChain
import PintosLabs.Interleaving
import PintosLabs.ParallelMergeSort
import PintosLabs.ReadersWriters
import PintosLabs.FileDescriptors
import PintosLabs.ChildProcesses
import PintosLabs.ChildWaits
import PintosLabs.ChildExits
import PintosLabs.Mlfqs
import PintosLabs.Directory
import PintosLabs.FailedCreate
import PintosLabs.SystemCalls
import PintosLabs.UserSizes
import PintosLabs.Executables
import PintosLabs.ReadOnlyExecutables
import PintosLabs.Preemption
import PintosLabs.SegmentedCache
import PintosLabs.Replacement
import PintosLabs.SameHits
import PintosLabs.ClockFrames
import PintosLabs.SecondChance
import PintosLabs.CacheReplacement
import PintosLabs.AlarmClock
import PintosLabs.LinkedQueue
import PintosLabs.JobScheduler
import PintosLabs.JobQueue
import PintosLabs.JobsKept
import PintosLabs.JobProcesses
import PintosLabs.MlfqsArithmetic
import PintosLabs.MlfqsUpdates
import PintosLabs.ClockQueue
import PintosLabs.LruStack
import PintosLabs.CStrings
import PintosLabs.JobSelect
import PintosLabs.DiskScheduling
import PintosLabs.DiskSweeps
import PintosLabs.JobCommands
import PintosLabs.SeekDistance
import PintosLabs.ShortestSeek
import PintosLabs.CommandLine
import PintosLabs.ArgumentPassing
import PintosLabs.UserMemory
import PintosLabs.UserPointers
import PintosLabs.CondSort
import PintosLabs.CondSteps
import PintosLabs.CondSignal
import PintosLabs.SemaUp
import PintosLabs.InterruptThreads
import PintosLabs.InterruptSafety
import PintosLabs.SleepLength
import PintosLabs.MlfqsReports
import PintosLabs.PointerChecks
import PintosLabs.HeldLocks
import PintosLabs.TryAcquire
import PintosLabs.ProcessExecute
import PintosLabs.OpenCall
import PintosLabs.ThreadJoins
import PintosLabs.VictimSearch
import PintosLabs.PagingBounds
import PintosLabs.PageSize
import PintosLabs.IndexGrowth
import PintosLabs.Restart
import PintosLabs.FullDisk
import PintosLabs.DonationExact
import PintosLabs.Bitmaps
import PintosLabs.ByteMemory
import PintosLabs.PageAllocator
import PintosLabs.Malloc
import PintosLabs.MallocHeap
import PintosLabs.MallocSteps
import PintosLabs.MallocRuns
import PintosLabs.MallocCallers
import PintosLabs.PageTables
import PintosLabs.AddressSpaces
import PintosLabs.AddressSteps
import PintosLabs.AddressCalls
import PintosLabs.AddressRelease
import PintosLabs.PagingInit
import PintosLabs.AddressRuns
