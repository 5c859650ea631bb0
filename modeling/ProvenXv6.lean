import ProvenXv6.ScanMin
import ProvenXv6.DemandPaging
import ProvenXv6.PagingModel
import ProvenXv6.PagingFrames
import ProvenXv6.PagingSound
import ProvenXv6.PagingDemand
import ProvenXv6.PagingOptimal
import ProvenXv6.Recency
import ProvenXv6.PagingLru
import ProvenXv6.StepSystem
import ProvenXv6.ProcModel
import ProvenXv6.ProcOps
import ProvenXv6.ProcSteps
import ProvenXv6.ProcInvariant
import ProvenXv6.SchedMinimum
import ProvenXv6.SchedFairness
import ProvenXv6.SchedEntry
import ProvenXv6.SchedBuilt
import ProvenXv6.CrashLogic
import ProvenXv6.LogModel
import ProvenXv6.LogCrash
import ProvenXv6.LogGroup
import ProvenXv6.LogGroupSound
import ProvenXv6.LogGroupCommit
import ProvenXv6.LogSpace
import ProvenXv6.LittleEndian
import ProvenXv6.WeakestPre
import ProvenXv6.Ownership
import ProvenXv6.FsModel
import ProvenXv6.FsDirModel
import ProvenXv6.FsPrimitive
import ProvenXv6.FsLayout
import ProvenXv6.FsRefs
import ProvenXv6.FsAlloc
import ProvenXv6.FsBmap
import ProvenXv6.FsUpdate
import ProvenXv6.FsTrunc
import ProvenXv6.FsInvariant
import ProvenXv6.FsIcache
import ProvenXv6.FsRead
import ProvenXv6.FsWrite
import ProvenXv6.FsDirs
import ProvenXv6.FsPaths
import ProvenXv6.FsOps
import ProvenXv6.FsOwnership
import ProvenXv6.SchedOverflow
import ProvenXv6.SyscallWeight
import ProvenXv6.SmpModel
import ProvenXv6.SmpOps
import ProvenXv6.SmpInvariant
import ProvenXv6.SmpTree
import ProvenXv6.SmpKill
import ProvenXv6.SmpMask
import ProvenXv6.TraceModel
import ProvenXv6.TraceLines
import ProvenXv6.PagingEntry
import ProvenXv6.PagingColdMiss
import ProvenXv6.RefCount
import ProvenXv6.VmModel
import ProvenXv6.VmLayout
import ProvenXv6.VmPages
import ProvenXv6.VmMap
import ProvenXv6.VmDirs
import ProvenXv6.VmCopy
import ProvenXv6.VmGrow
import ProvenXv6.VmSpare
import ProvenXv6.KernModel
import ProvenXv6.KernRules
import ProvenXv6.KernFiles
import ProvenXv6.KernFtable
import ProvenXv6.KernCalls
import ProvenXv6.KernSpaces
import ProvenXv6.KernStackModel
import ProvenXv6.KernExec
import ProvenXv6.KernBoot
import ProvenXv6.KernSteps
import ProvenXv6.KernOwners
import ProvenXv6.KernStray
import ProvenXv6.KernStack
import ProvenXv6.KernTable
import ProvenXv6.KernWalks
import ProvenXv6.KernExecWalks
import ProvenXv6.ArgFrame
import ProvenXv6.KernArgs
import ProvenXv6.SlotMap
import ProvenXv6.FsNodes
import ProvenXv6.FsDirents
import ProvenXv6.FsByteArray
import ProvenXv6.FsLedger
import ProvenXv6.FsLedgerOps
import ProvenXv6.FsRemove
import ProvenXv6.FsDirMap
import ProvenXv6.PagingUses
import ProvenXv6.PagingLfu
import ProvenXv6.PagingEsc
import ProvenXv6.PagingEscVictim
import ProvenXv6.PagingSc
import ProvenXv6.RingBuffer
import ProvenXv6.PipeModel
import ProvenXv6.PipeSteps
import ProvenXv6.PipeFifo
import ProvenXv6.PipeWakeup
import ProvenXv6.ConsoleModel
import ProvenXv6.ConsoleDiscipline
import ProvenXv6.LoginModel
import ProvenXv6.LoginParse
import ProvenXv6.LoginCheck
import ProvenXv6.Chains
import ProvenXv6.Extents
import ProvenXv6.MallocModel
import ProvenXv6.MallocFree
import ProvenXv6.MallocHeap
import ProvenXv6.ShellModel
import ProvenXv6.ShellTokens
import ProvenXv6.ShellGrammar
import ProvenXv6.ShellParse
import ProvenXv6.BcacheModel
import ProvenXv6.BcacheList
import ProvenXv6.BcacheInvariant
import ProvenXv6.BcacheSteps
import ProvenXv6.BcacheCoherent
import ProvenXv6.PagingOrder
import ProvenXv6.SchedWeightset
import ProvenXv6.Stdio
import ProvenXv6.PagingInput
import ProvenXv6.PagingLoad
import ProvenXv6.PagingChoose
import ProvenXv6.PagingPrompts
import ProvenXv6.VmExact
import ProvenXv6.Recording
import ProvenXv6.FsLogModel
import ProvenXv6.FsLogSpace
import ProvenXv6.Lockstep
import ProvenXv6.FsWriteSplit
import ProvenXv6.KernWriteModel
import ProvenXv6.KernWrite
import ProvenXv6.KernWriteResult
import ProvenXv6.KernWriteSplit
import ProvenXv6.PagingSweep
import ProvenXv6.Hcat
import ProvenXv6.MallocKernel
import ProvenXv6.MallocMore
import ProvenXv6.MallocTop
import ProvenXv6.MallocSizes
import ProvenXv6.SyscallArgs
import ProvenXv6.Runs
import ProvenXv6.FsComponents
import ProvenXv6.FsWalk
import ProvenXv6.FsResolve
import ProvenXv6.IdeModel
import ProvenXv6.IdeRequests
import ProvenXv6.PagingCompetitive
import ProvenXv6.SchedWaiting
import ProvenXv6.Grep
import ProvenXv6.SpinlockModel
import ProvenXv6.SpinlockExclusion
