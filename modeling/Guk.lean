import Guk.Runs
import Guk.Chain
import Guk.Owner
import Guk.SpinLock
import Guk.GrantTable
import Guk.FsFreelist
import Guk.Ring
import Guk.FsRing
import Guk.FsRingMatch
import Guk.Sched
import Guk.SchedCpu
import Guk.StableOrder
import Guk.SleepQueue
import Guk.Timers
import Guk.SchedIdle
import Guk.WaitEvent
import Guk.SchedQueue
import Guk.Links
import Guk.SchedQueueInv
import Guk.SchedJoin
import Guk.Tiling
import Guk.Xmalloc
import Guk.XmallocPages
import Guk.XmallocInv
import Guk.XmallocRun
import Guk.XmallocRoom
import Guk.ByteMemory
import Guk.Xrealloc
import Guk.Bitmap
import Guk.PagePool
import Guk.PagePoolSearch
import Guk.PagePoolFirstFit
import Guk.PagePoolInv
import Guk.PagePoolBitmap
import Guk.PagePoolHoles
import Guk.PagePoolRules
import Guk.PagePoolSound
import Guk.PagePoolRounds
import Guk.PagePoolCount
import Guk.PagePoolHints
import Guk.PagePoolLock
import Guk.PagePoolExclusive
import Guk.PagePoolBalloon
import Guk.PagePoolShrink
import Guk.PagePoolRecords
import Guk.PagePoolBoot
import Guk.PagePoolGrow
import Guk.XenbusWatch
import Guk.XenbusRing
import Guk.XenbusWrite
import Guk.XenbusLayout
import Guk.XenbusReplies
import Guk.XenbusStream
import Guk.XenbusReply
import Guk.XenbusReplyInv
import Guk.XenbusReplyRun
import Guk.XenbusId
import Guk.XenbusSuspend
import Guk.XenbusQuiet
import Guk.SmpSuspend
import Guk.DebugSuspend
import Guk.DebugResume
import Guk.DebugWake
import Guk.DebugRequests
import Guk.DebugTransfer
import Guk.DebugAccess
import Guk.Overlay
import Guk.DebugInPlace
import Guk.DebugSleep
import Guk.DebugPairing
import Guk.Watchpoint
import Guk.WatchpointInv
import Guk.WatchpointRange
import Guk.EventDemux
import Guk.BlkRing
import Guk.BlkRingInv
import Guk.BlkRequest
import Guk.BlkRead
import Guk.BlkSuspend
import Guk.NetTx
import Guk.NetRx
import Guk.NetRxGrants
import Guk.NetRxBuffers
import Guk.NetShutdown
import Guk.FsBackend
import Guk.Path
import Guk.FsExport
import Guk.CString
import Guk.FsList
import Guk.FsOps
import Guk.FsRead
import Guk.FsIds
import Guk.Completion
import Guk.CompletionAll
import Guk.Ledger
import Guk.BlockHeap
import Guk.ThreadMemory
import Guk.ThreadId
import Guk.Decimal
import Guk.ExecChannel
import Guk.ExecStatus
import Guk.ExecStatusInv
import Guk.ExecArgs
import Guk.ExecSlots
import Guk.Console
import Guk.ConsoleRead
import Guk.Radix
import Guk.P2m
import Guk.PageTable
import Guk.PageTableBuild
import Guk.PageTableRange
