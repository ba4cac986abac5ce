import PrimaryElection.Framework.CacheDelivery
import PrimaryElection.Framework.CacheThrottle
import PrimaryElection.Framework.Delivery
import PrimaryElection.Framework.SyncLog
import PrimaryElection.Framework.JsonTotal
import PrimaryElection.Framework.FanOutRuns
import PrimaryElection.Framework.RefillBounds
import PrimaryElection.Framework.RefillRanking
import PrimaryElection.Framework.NetworkWorker
import PrimaryElection.Framework.ThreadProcess
import PrimaryElection.Framework.DocumentLog
import PrimaryElection.Framework.ItemZip
import PrimaryElection.Framework.CalcRequest
import PrimaryElection.Framework.MessageBounds
import PrimaryElection.Framework.RequestPools
import PrimaryElection.Framework.Persistent
import PrimaryElection.Framework.Train
import PrimaryElection.Framework.TimeShares
import PrimaryElection.Framework.ConfigBounds
import PrimaryElection.Core.Filtered
import PrimaryElection.Core.Clicks
import PrimaryElection.Core.RequestBound
import PrimaryElection.Core.ResponseBase
import PrimaryElection.Core.OpenDB
import PrimaryElection.Service.ServiceGlue
import PrimaryElection.Util.HashTableRecovery
import PrimaryElection.Util.MemAllocator
import PrimaryElection.Framework.CacheStore
import PrimaryElection.Framework.CenterDeadlock
import PrimaryElection.Framework.CenterServed
import PrimaryElection.Framework.CenterAccounts
import PrimaryElection.Framework.CenterAnswers
import PrimaryElection.Framework.CenterSettled
