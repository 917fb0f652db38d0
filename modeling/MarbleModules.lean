import MarbleModules.Runs
import MarbleModules.PointerChains
import MarbleModules.IpaTable
import MarbleModules.IpaTableChains
import MarbleModules.IpaTableInvariant
import MarbleModules.IpaNat
import MarbleModules.IpaNatInvariant
import MarbleModules.IpaNatRuns
import MarbleModules.IpaNatHybrid
import MarbleModules.IpaNatHybridInvariant
import MarbleModules.IpaNatHybridRuns
import MarbleModules.IpaNatMigration
import MarbleModules.IpaIpv6ct
import MarbleModules.IpaIpv6ctRuns
import MarbleModules.CamSync
import MarbleModules.CamSyncInvariant
import MarbleModules.CamSyncMerge
import MarbleModules.CamSyncSignal
import MarbleModules.CamSyncRuns
import MarbleModules.MmrmClock
import MarbleModules.MmrmClockRuns
import MarbleModules.MmrmAdmission
import MarbleModules.Dsc
import MarbleModules.DscInvariant
import MarbleModules.DscRuns
import MarbleModules.DscQuiescence
import MarbleModules.Stacks
import MarbleModules.Serialization
import MarbleModules.SerializationRegions
import MarbleModules.SerializationInvariant
import MarbleModules.SerializationExclusion
import MarbleModules.SerializationCounter
import MarbleModules.SerializationPromotion
import MarbleModules.SerializationNodes
import MarbleModules.ScanBudgetRuns
import MarbleModules.RxReoInvariant
import MarbleModules.PrefixFraming
import MarbleModules.RmnetFragments
import MarbleModules.RmnetDeaggregateFrames
import MarbleModules.DfcQueues
import MarbleModules.IpaRm
import MarbleModules.IpaRmLedger
import MarbleModules.IpaRmAccounting
import MarbleModules.IpaRmRuns
import MarbleModules.RingWindow
import MarbleModules.GsiRing
import MarbleModules.Gsi
import MarbleModules.GsiAccounting
import MarbleModules.GsiRuns
import MarbleModules.RmnetSegment
import MarbleModules.RmnetSegmentHeaders
import MarbleModules.RmnetSegmentFrames
import MarbleModules.DfsRandomChan
import MarbleModules.DfsBands
import MarbleModules.DfsSafety
import MarbleModules.LeBytes
import MarbleModules.RsnElement
import MarbleModules.RsnRoundTrip
import MarbleModules.Mmie
import MarbleModules.MmieReplay
import MarbleModules.HfiResponse
import MarbleModules.VidcQueue
import MarbleModules.VidcQueueRuns
import MarbleModules.SafeWalk
import MarbleModules.VidcCaps
import MarbleModules.VidcCapsRuns
import MarbleModules.Blm
import MarbleModules.ScanFold
import MarbleModules.BlmEviction
import MarbleModules.BlmRuns
import MarbleModules.TwoCursors
import MarbleModules.IpaRuleEq
import MarbleModules.IpaRuleRoundTrip
import MarbleModules.IpaRuleTable
import MarbleModules.RxDefrag
import MarbleModules.KeyInsert
import MarbleModules.RxDefragList
import MarbleModules.RxDefragChain
import MarbleModules.RxDefragRuns
import MarbleModules.WmiTlvTable
import MarbleModules.WmiTlv
import MarbleModules.PadChunks
import MarbleModules.WmiTlvEntry
import MarbleModules.WmiTlvDecode
import MarbleModules.WmiTlvMessage
import MarbleModules.VidcIndices
import MarbleModules.LinkedLists
import MarbleModules.RingScan
import MarbleModules.OlRxReorder
import MarbleModules.OlRxReorderLists
import MarbleModules.OlRxReorderRelease
import MarbleModules.OlRxPnInd
import MarbleModules.OlRxPn
import MarbleModules.OlRxPnRuns
import MarbleModules.OlRxPnReplay
import MarbleModules.CamHandles
import MarbleModules.CamHandleRuns
import MarbleModules.DfsLeakTable
import MarbleModules.DfsLeakage
import MarbleModules.DfsLeakageExact
import MarbleModules.IpaRmFailedRequest
import MarbleModules.Overwrites
import MarbleModules.GsiXfer
import MarbleModules.GsiReject
import MarbleModules.Michael
import MarbleModules.TkipMic
import MarbleModules.TkipMicLoop
import MarbleModules.TkipMicExact
import MarbleModules.TkipDemic
import MarbleModules.CamReqTbl
import MarbleModules.CamReqLink
import MarbleModules.CamReqApply
import MarbleModules.CamReqRetry
import MarbleModules.CamReqRuns
import MarbleModules.VidcRoi
import MarbleModules.LinkWalk
import MarbleModules.SmEngine
import MarbleModules.FirstSplit
import MarbleModules.FlexMem
import MarbleModules.FlexMemRuns
import MarbleModules.IpaNatAtomic
import MarbleModules.RsnCursor
import MarbleModules.RsnSound
import MarbleModules.IpaNatStatemach
import MarbleModules.IpaNatHold
import MarbleModules.WmiTlvCheck
import MarbleModules.ActionOui
import MarbleModules.ActionOuiSearch
import MarbleModules.ActionOuiMatch
import MarbleModules.RankedLists
import MarbleModules.IpaRuleAttrib
import MarbleModules.IpaRuleOrder
import MarbleModules.IpaRuleCanon
import MarbleModules.IpaRuleDirect
import MarbleModules.IpaRuleKept
import MarbleModules.IpaNatPdn
import MarbleModules.OnesComplement
import MarbleModules.IpaNatCksum
import MarbleModules.CamSyncFile
import MarbleModules.MmrmSetval
import MarbleModules.RmnetCutter
import MarbleModules.RmnetIpId
import MarbleModules.RmnetMapSegment
import MarbleModules.RmnetMapIpId
import MarbleModules.RmnetCoalCheck
import MarbleModules.RmnetFragOps
import MarbleModules.Lifetimes
import MarbleModules.RmnetDescPool
import MarbleModules.RmnetIngress
import MarbleModules.RmnetIngressFrames
import MarbleModules.RmnetIngressSegments
import MarbleModules.RmnetDisposal
import MarbleModules.Consumers
import MarbleModules.Numerals
import MarbleModules.QdfConsume
import MarbleModules.QdfIntParse
import MarbleModules.QdfIntExact
import MarbleModules.QdfArrayParse
import MarbleModules.QdfAddrParse
import MarbleModules.QdfIpv6Parse
import MarbleModules.IpaRuleHandles
import MarbleModules.CamReqDelays
import MarbleModules.RxReoPlacement
import MarbleModules.CamWorkq
import MarbleModules.CamWorkqRuns
import MarbleModules.CamWorkqDrain
import MarbleModules.RmnetAgg
import MarbleModules.RmnetAggRuns
import MarbleModules.RmnetAggBuffer
import MarbleModules.RmnetAggFrames
import MarbleModules.BinArena
import MarbleModules.IpaHdr
import MarbleModules.IpaHdrSpace
import MarbleModules.IpaHdrImage
import MarbleModules.IpaPm
import MarbleModules.IpaPmRuns
import MarbleModules.IpaPmWaits
import MarbleModules.IpaPmAsync
import MarbleModules.IpaPmThroughput
import MarbleModules.HtcSend
import MarbleModules.HtcSendRuns
import MarbleModules.HtcSendServed
