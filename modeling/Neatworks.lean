import Neatworks.PbftPending
import Neatworks.PbftAgreement
import Neatworks.PbftQueue
import Neatworks.PbftView
import Neatworks.PbftAssert
import Neatworks.YcsbAgree
import Neatworks.BulkTransfer
import Neatworks.UnreplicatedDry
import Neatworks.UnreplicatedLinear
import Neatworks.SearchCorrect
import Neatworks.ControlDelivery
import Neatworks.KademliaContacting
import Neatworks.KademliaRemote
import Neatworks.KademliaBootstrap
import Neatworks.EntropyPut
import Neatworks.EntropyPanic
import Neatworks.EntropyStorage
import Neatworks.EntropyIntegrity
import Neatworks.KademliaRefresh
import Neatworks.KademliaBuckets
import Neatworks.KademliaHistory
import Neatworks.PbftWindow
import Neatworks.PbftBatch
import Neatworks.ClockSequence
import Neatworks.SessionTimers
import Neatworks.ControlBookkeeping
import Neatworks.KademliaQueries
import Neatworks.LinearTimer
import Neatworks.OrderedTimer
import Neatworks.BufferedTimers
import Neatworks.Framing
import Neatworks.Preamble
import Neatworks.YcsbInserts
import Neatworks.YcsbCount
import Neatworks.EntropyRecovery
import Neatworks.EntropyFlight
import Neatworks.EntropyOnce
import Neatworks.EntropyConserve
import Neatworks.KademliaDistance
import Neatworks.YcsbLoad
import Neatworks.PutGet
import Neatworks.PbftPrefix
import Neatworks.ReplicatedLog
import Neatworks.PbftReplay
import Neatworks.PbftReplicated
import Neatworks.PbftOrder
import Neatworks.PbftAnswers
import Neatworks.SearchWorkers
import Neatworks.SearchDraining
import Neatworks.SearchJoined
import Neatworks.SearchEnds
import Neatworks.SearchProbe
import Neatworks.SearchSingle
import Neatworks.CheckSearch
import Neatworks.CheckAppend
import Neatworks.CheckPredicted
import Neatworks.DispatchDelivery
import Neatworks.CheckStatic
