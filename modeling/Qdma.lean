import Qdma.AddrSpan
import Qdma.AioRuns
import Qdma.AioSubmit
import Qdma.AutoAdd
import Qdma.Batching
import Qdma.BitField
import Qdma.Blocks
import Qdma.Books
import Qdma.BufferSafety
import Qdma.ByInterrupt
import Qdma.ByteMem
import Qdma.ByteStream
import Qdma.C2hRead
import Qdma.C2hRun
import Qdma.Cdev
import Qdma.CmdLine
import Qdma.CmdSafe
import Qdma.CmdSizes
import Qdma.CmplCtrl
import Qdma.Completions
import Qdma.Contexts
import Qdma.Counters
import Qdma.Credit
import Qdma.CreditFifo
import Qdma.Crew
import Qdma.Csr
import Qdma.CsrVf
import Qdma.CtxtDecode
import Qdma.CtxtFrame
import Qdma.Delivery
import Qdma.Descent
import Qdma.Desk
import Qdma.DevIndex
import Qdma.Device
import Qdma.Dispatch
import Qdma.DmaMap
import Qdma.Drain
import Qdma.DumpSafe
import Qdma.Dumps
import Qdma.ErrLine
import Qdma.ErrNames
import Qdma.ErrStat
import Qdma.Exec
import Qdma.FileTransfer
import Qdma.FillSpec
import Qdma.FinalDescs
import Qdma.Fmap
import Qdma.Framing
import Qdma.FreeList
import Qdma.FreeListLaw
import Qdma.Geometry
import Qdma.GiveBack
import Qdma.H2c
import Qdma.IfNames
import Qdma.IndexOpts
import Qdma.IndirectCtxt
import Qdma.IntrAgg
import Qdma.IntrCtxt
import Qdma.IntrSafe
import Qdma.Isolation
import Qdma.JobLine
import Qdma.LeastLoaded
import Qdma.Lifecycle
import Qdma.ListHeads
import Qdma.Literals
import Qdma.LockTrace
import Qdma.Locking
import Qdma.MaskScan
import Qdma.Mbox
import Qdma.MboxRead
import Qdma.MboxReply
import Qdma.MboxStatus
import Qdma.MboxVf
import Qdma.MmPasses
import Qdma.NamedQueues
import Qdma.Netlink
import Qdma.Offline
import Qdma.OpFrame
import Qdma.Opening
import Qdma.PacketRead
import Qdma.PageCut
import Qdma.PairModes
import Qdma.PairView
import Qdma.Passes
import Qdma.Peek
import Qdma.PrepRes
import Qdma.Progress
import Qdma.QOptions
import Qdma.Qid2Vec
import Qdma.QueueCmds
import Qdma.QueueIds
import Qdma.QueueRun
import Qdma.Receiving
import Qdma.RecvSafe
import Qdma.Refusals
import Qdma.RegDump
import Qdma.RegFile
import Qdma.RejectedStart
import Qdma.Reports
import Qdma.Reset
import Qdma.Restart
import Qdma.RingHelpers
import Qdma.RingIndex
import Qdma.RingRun
import Qdma.RingSizes
import Qdma.RingTrace
import Qdma.RxBufs
import Qdma.RxFrame
import Qdma.RxIndex
import Qdma.RxPages
import Qdma.RxReports
import Qdma.Scatter
import Qdma.SendCmd
import Qdma.Serve
import Qdma.Served
import Qdma.Servicing
import Qdma.SetQmax
import Qdma.Setup
import Qdma.Sleeper
import Qdma.StC2h
import Qdma.StPasses
import Qdma.StaleSlots
import Qdma.Standstill
import Qdma.StartC2h
import Qdma.StartCmd
import Qdma.Stores
import Qdma.Sweep
import Qdma.TextOut
import Qdma.ThreadWork
import Qdma.Threads
import Qdma.Transfer
import Qdma.TxFrame
import Qdma.TxReports
import Qdma.Types
import Qdma.Upper
import Qdma.UserMap
import Qdma.UserPins
import Qdma.UserTransfer
import Qdma.Vectors
import Qdma.VfTable
import Qdma.WakeUp
import Qdma.Wakers
import Qdma.XpdevAdd
