import MoneroRandomXMiner.Histories
import MoneroRandomXMiner.Ownership
import MoneroRandomXMiner.LockOrder
import MoneroRandomXMiner.JsonSyntax
import MoneroRandomXMiner.JsonFields
import MoneroRandomXMiner.ShareTarget
import MoneroRandomXMiner.TargetHelper
import MoneroRandomXMiner.RandomXInit
import MoneroRandomXMiner.InitTruth
import MoneroRandomXMiner.RandomXWrapper
import MoneroRandomXMiner.MinerMachine
import MoneroRandomXMiner.StartUp
import MoneroRandomXMiner.SeedSoundness
import MoneroRandomXMiner.JobNotification
import MoneroRandomXMiner.SubmittedShares
import MoneroRandomXMiner.HandleMessage
import MoneroRandomXMiner.Teardown
import MoneroRandomXMiner.MinerThreads
import MoneroRandomXMiner.JobOrder
import MoneroRandomXMiner.ShareAccounting
import MoneroRandomXMiner.StreamLines
import MoneroRandomXMiner.ReceiveLoop
import MoneroRandomXMiner.ConnectionEnd
import MoneroRandomXMiner.SendMessage
import MoneroRandomXMiner.MessageFields
import MoneroRandomXMiner.ConfigManager
import MoneroRandomXMiner.MinerViewModel
import MoneroRandomXMiner.NativeBridge
import MoneroRandomXMiner.NativeStats
import MoneroRandomXMiner.MinerService
import MoneroRandomXMiner.JobHistory
import MoneroRandomXMiner.BlobHelper
import MoneroRandomXMiner.FullWidthTarget
import MoneroRandomXMiner.MessageCases
import MoneroRandomXMiner.UsableJobs
import MoneroRandomXMiner.WrapperInitialize
import MoneroRandomXMiner.HashAccounting
import MoneroRandomXMiner.NonceWalks
import MoneroRandomXMiner.StartRequests
import MoneroRandomXMiner.WorkerPool
import MoneroRandomXMiner.SocketOwnership
import MoneroRandomXMiner.AndroidBridge
import MoneroRandomXMiner.MiningIntensity
import MoneroRandomXMiner.ConfigEdits
import MoneroRandomXMiner.Monitoring
import MoneroRandomXMiner.RigList
import MoneroRandomXMiner.MinerPage
import MoneroRandomXMiner.NumericSettings
import MoneroRandomXMiner.NativeCalls
import MoneroRandomXMiner.PageControl
import MoneroRandomXMiner.HexCodec
import MoneroRandomXMiner.CompactTarget
import MoneroRandomXMiner.NonceStretches
import MoneroRandomXMiner.Simulations
import MoneroRandomXMiner.CoarseView
import MoneroRandomXMiner.ShutDown
import MoneroRandomXMiner.SentLines
import MoneroRandomXMiner.PoolSession
import MoneroRandomXMiner.ShareDelivery
import MoneroRandomXMiner.PoolDialogue
import MoneroRandomXMiner.ShareWork
import MoneroRandomXMiner.MinerResources
import MoneroRandomXMiner.SessionEnd
import MoneroRandomXMiner.Backlog
import MoneroRandomXMiner.ServiceCalls
import MoneroRandomXMiner.JsonObjects
import MoneroRandomXMiner.StatsText
import MoneroRandomXMiner.PageStats
import MoneroRandomXMiner.WrapperHashing
import MoneroRandomXMiner.ShareCredits
import MoneroRandomXMiner.RigCredits
import MoneroRandomXMiner.SavedForms
