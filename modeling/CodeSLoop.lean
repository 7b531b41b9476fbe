import CodeSLoop.Lib.Run
import CodeSLoop.Lib.Fifo
import CodeSLoop.Lib.Memory
import CodeSLoop.Lib.Bits
import CodeSLoop.Lib.Segments
import CodeSLoop.Lib.Bytes
import CodeSLoop.Lib.Pages
import CodeSLoop.Lib.Codec
import CodeSLoop.Lib.Calls
import CodeSLoop.Lib.Tokens
import CodeSLoop.Lib.CondVar
import CodeSLoop.Lib.Archive
import CodeSLoop.Lib.Savepoints
import CodeSLoop.Lib.Ring
import CodeSLoop.Lib.Zstream
import CodeSLoop.Lib.ZstreamLazy
import CodeSLoop.Lib.Heap
import CodeSLoop.Lib.Objects
import CodeSLoop.Lib.Chains
import CodeSLoop.Lib.Crc
import CodeSLoop.Lib.Numerals
import CodeSLoop.Lib.Spn
import CodeSLoop.Lib.Gf256
import CodeSLoop.Lib.Aes
import CodeSLoop.Lib.NhHash
import CodeSLoop.Lib.PolyHash
import CodeSLoop.Lib.Refine
import CodeSLoop.Lib.DaryHeap
import CodeSLoop.Lib.Agenda
import CodeSLoop.Common.Circbuf
import CodeSLoop.Common.CircbufSafety
import CodeSLoop.Common.CircbufTwoPhase
import CodeSLoop.Common.Tbuf
import CodeSLoop.Common.TbufRun
import CodeSLoop.Common.PreallocatedArray
import CodeSLoop.Common.PreallocatedArrayRun
import CodeSLoop.Common.WorkBuffer
import CodeSLoop.Common.WorkBufferBounds
import CodeSLoop.Common.WorkBufferFifo
import CodeSLoop.Common.Inpvec
import CodeSLoop.Common.InpvecSpec
import CodeSLoop.Common.InpvecMap
import CodeSLoop.Common.InpvecIter
import CodeSLoop.Common.InpvecScan
import CodeSLoop.Common.InpvecPositions
import CodeSLoop.Common.InpvecFree
import CodeSLoop.Common.InpvecPushed
import CodeSLoop.Common.HashPage
import CodeSLoop.Common.HashIndex
import CodeSLoop.Common.Hash
import CodeSLoop.Common.Queue
import CodeSLoop.Common.QueueSpec
import CodeSLoop.Common.QueueSlots
import CodeSLoop.Common.QueueFifo
import CodeSLoop.Common.QueueLeaks
import CodeSLoop.Common.Pbuf
import CodeSLoop.Common.Pvlist
import CodeSLoop.Common.PvlistOps
import CodeSLoop.Common.PbufPool
import CodeSLoop.Common.Xdrbuf
import CodeSLoop.Common.XdrbufSpec
import CodeSLoop.Common.XdrRoundTrip
import CodeSLoop.Common.XdrReads
import CodeSLoop.Common.XdrSized
import CodeSLoop.Common.Strings
import CodeSLoop.Common.StringsTerminated
import CodeSLoop.Common.StringsObj
import CodeSLoop.Common.StringsAppend
import CodeSLoop.Common.StringsSearch
import CodeSLoop.Common.StringsCrc
import CodeSLoop.Common.StringsInteger
import CodeSLoop.Common.VarXdr
import CodeSLoop.Common.Zfile
import CodeSLoop.Common.ZfilePump
import CodeSLoop.Common.ZfileStreams
import CodeSLoop.Common.ZfileCoherence
import CodeSLoop.Common.EvHeap
import CodeSLoop.Common.EvQueue
import CodeSLoop.Common.EvTurns
import CodeSLoop.Common.EvState
import CodeSLoop.Common.EvTimers
import CodeSLoop.Common.EvExpiry
import CodeSLoop.Common.EvFds
import CodeSLoop.Common.EvBackend
import CodeSLoop.Common.EvLists
import CodeSLoop.Common.EvView
import CodeSLoop.Common.EvOwed
import CodeSLoop.Common.EvLoop
import CodeSLoop.Common.EvRuns
import CodeSLoop.Common.EvAsync
import CodeSLoop.Nthread.Event
import CodeSLoop.Nthread.Pevent
import CodeSLoop.Nthread.Mutex
import CodeSLoop.Nthread.Thread
import CodeSLoop.Nthread.Thrpool
import CodeSLoop.Nthread.ThrpoolBounds
import CodeSLoop.Nthread.ThrpoolStop
import CodeSLoop.Nthread.ThrpoolStopSafety
import CodeSLoop.Rpc.Stubs
import CodeSLoop.Rpc.StubLoops
import CodeSLoop.Rpc.StubCalls
import CodeSLoop.Rpc.StubArgs
import CodeSLoop.Comm.Bfd
import CodeSLoop.Comm.BfdReads
import CodeSLoop.Rpc.TransTcp
import CodeSLoop.Rpc.SrvRequests
import CodeSLoop.Sec.CryptBuf
import CodeSLoop.Sec.CryptBufMac
import CodeSLoop.Sec.CryptPkt
import CodeSLoop.Sec.EcdhKey
import CodeSLoop.Sec.EcdhKeyState
import CodeSLoop.Sec.RijndaelTables
import CodeSLoop.Sec.Rijndael
import CodeSLoop.Sec.RijndaelCipher
import CodeSLoop.Sec.UmacNh
import CodeSLoop.Sec.UmacPoly
import CodeSLoop.Sec.Uhash
import CodeSLoop.Sec.Umac
import CodeSLoop.Sec.UmacAe
import CodeSLoop.Sec.CryptPktAe
import CodeSLoop.Comm.UdpMsg
import CodeSLoop.Comm.UdpData
import CodeSLoop.Comm.UdpAuth
import CodeSLoop.Comm.UdpPackets
import CodeSLoop.Comm.UdpHandlers
import CodeSLoop.Comm.UdpHello
import CodeSLoop.Comm.UdpRecvr
import CodeSLoop.Comm.TcpLstnr
import CodeSLoop.Comm.TcpOwnership
import CodeSLoop.Comm.TcpSweep
import CodeSLoop.Comm.TcpCallbacks
import CodeSLoop.Db.Tran
import CodeSLoop.Db.TranNested
import CodeSLoop.Db.Obj
import CodeSLoop.Db.Query
import CodeSLoop.Db.VarHelper
import CodeSLoop.Db.SqlHelper
import CodeSLoop.Db.ObjFind
import CodeSLoop.Db.Generator
import CodeSLoop.Db.Reg
