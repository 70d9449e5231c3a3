import Wagtail.Library.Runs
import Wagtail.Library.Word
import Wagtail.Library.Memory
import Wagtail.Library.Traced
import Wagtail.Library.Links
import Wagtail.Library.FirstFit
import Wagtail.Library.Coalesced
import Wagtail.Library.Ranked
import Wagtail.Library.Sparse
import Wagtail.Library.Pool
import Wagtail.Library.Numeral
import Wagtail.Heap
import Wagtail.HeapBlocks
import Wagtail.HeapCalls
import Wagtail.HeapRuns
import Wagtail.HeapFit
import Wagtail.HeapCanonical
import Wagtail.Kstring
import Wagtail.KstringCuts
import Wagtail.Kstream
import Wagtail.Vfs
import Wagtail.VfsRouting
import Wagtail.VfsMounts
import Wagtail.Kqueue
import Wagtail.KqueueNodes
import Wagtail.KqueueRuns
import Wagtail.Mmu
import Wagtail.Mm
import Wagtail.TranslationTable
import Wagtail.TranslationRefinement
import Wagtail.TranslationRuns
import Wagtail.Scheduler
import Wagtail.SchedulerObjects
import Wagtail.SchedulerContext
import Wagtail.SchedulerFork
import Wagtail.SchedulerFamily
import Wagtail.SchedulerView
import Wagtail.SchedulerPid
import Wagtail.ExpandableArray
import Wagtail.ExpandableArrayRuns
import Wagtail.DeviceMgr
import Wagtail.DeviceRegistry
import Wagtail.SchedulerMoves
import Wagtail.SchedulerQueue
import Wagtail.SchedulerWait
import Wagtail.SchedulerChildren
import Wagtail.Process
import Wagtail.ProcessPages
import Wagtail.ProcessMemory
import Wagtail.ProcessRuns
import Wagtail.Sd
import Wagtail.SdQueue
import Wagtail.SdOrder
import Wagtail.BlockDevice
import Wagtail.IoLifetime
import Wagtail.SdErrors
import Wagtail.SdTransfer
import Wagtail.SdDelivery
import Wagtail.Partition
import Wagtail.Fat32
import Wagtail.Fat32File
import Wagtail.FatVolume
import Wagtail.Fat32Paths
import Wagtail.Fat32Directory
import Wagtail.Fat32Names
import Wagtail.Fat32Next
import Wagtail.Fat32Lists
import Wagtail.Fat32FileRead
import Wagtail.Fat32FileChain
import Wagtail.Fat32FileRange
import Wagtail.Fat32Bounds
import Wagtail.Library.Tagged
import Wagtail.ProcessCopy
import Wagtail.ProcessExhaustion
import Wagtail.ProcessImage
import Wagtail.ProcessTables
import Wagtail.ProcessHeader
import Wagtail.SchedulerStatus
import Wagtail.SchedulerMemory
import Wagtail.Boot
import Wagtail.BootTables
import Wagtail.BootLayout
import Wagtail.StartCode
import Wagtail.StartExit
import Wagtail.StartRuns
import Wagtail.Tlb
import Wagtail.Library.RedBlack
import Wagtail.Rbtree
import Wagtail.RbtreeShape
import Wagtail.RbtreeInsert
import Wagtail.RbtreeRuns
import Wagtail.RbtreeUncles
import Wagtail.RbtreeBalance
import Wagtail.Library.Arm
import Wagtail.Interrupts
import Wagtail.ContextSwitch
import Wagtail.SchedulerSaved
import Wagtail.Preemption
import Wagtail.PreemptionRuns
import Wagtail.Library.RoundRobin
import Wagtail.SchedulerTurns
import Wagtail.Library.Bus
import Wagtail.SdCard
import Wagtail.SdProtocol
import Wagtail.SdInitialization
import Wagtail.PartitionTable
