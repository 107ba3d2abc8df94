import Orbis.FaultState
import Orbis.ChainSignature
import Orbis.VectorTable
import Orbis.ChainRun
import Orbis.ChainCurrency
import Orbis.ChainRestore
import Orbis.ChainLedger
import Orbis.ChainUpheld
import Orbis.ChainKeys
import Orbis.ChainPlaces
import Orbis.ChainCache
import Orbis.ChainImage
import Orbis.WindowMedian
import Orbis.ChainHeaviest
import Orbis.ChainCounters
import Orbis.ChainReady
import Orbis.ChainPriority
import Orbis.ChainReset
import Orbis.ChainReserved
import Orbis.ChainPoolSession
import Orbis.ChainConflict
import Orbis.ChainBinary
import Orbis.ChainQuery
import Orbis.WalletSync
import Orbis.WalletSession
import Orbis.ChainSparse
import Orbis.SwappedFiles
import Orbis.WalletShown
import Orbis.WalletPlaces
import Orbis.WalletUndo
import Orbis.WalletFaults
import Orbis.WalletKeys
import Orbis.WalletBlocks
import Orbis.PeerEntries
import Orbis.EventRuns
import Orbis.SyncThread
import Orbis.SyncRuns
import Orbis.StateList
import Orbis.WalletConsumer
import Orbis.WalletUnconfirmed
import Orbis.WalletPool
import Orbis.UndoLog
import Orbis.WalletState
import Orbis.WalletArchive
import Orbis.WalletRestore
import Orbis.PeerDelivery
import Orbis.PeerCount
import Orbis.QueueSleepers
import Orbis.WalletThreads
import Orbis.WalletPasses
import Orbis.WalletStale
import Orbis.CurrencyExact
import Orbis.AmountDigits
import Orbis.QueueFibers
import Orbis.PeerTimes
import Orbis.LevinFrames
import Orbis.TransactionSources
import Orbis.StreamVarint
import Orbis.ChainRing
import Orbis.TransactionExtra
import Orbis.ChainOrphans
import Orbis.PeerHead
import Orbis.ChainTemplate
import Orbis.ChainExpiry
import Orbis.SignatureComplete
import Orbis.PeerLists
import Orbis.JsonNumber
import Orbis.KvTree
