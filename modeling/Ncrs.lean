import Ncrs.ForStd.FileTree
import Ncrs.Native.Path
import Ncrs.Native.MutationJournal
import Ncrs.Native.FsCache
import Ncrs.Native.Backend
import Ncrs.Native.Replay
import Ncrs.Native.Offline
import Ncrs.Spec.ReplayCorrect
import Ncrs.Spec.OfflineCorrect
import Ncrs.Native.ReplayLoop
import Ncrs.Spec.ReplayLoopCorrect
import Ncrs.Spec.StagingSafe
import Ncrs.Native.Session
import Ncrs.Spec.JournalStagings
import Ncrs.Spec.SessionCorrect
import Ncrs.Native.PathSeq
import Ncrs.Native.LiveWorkers
import Ncrs.Spec.LiveOrder
import Ncrs.Spec.JournalMarks
import Ncrs.Spec.LiveWorkersCorrect
import Ncrs.Spec.PathSeqCorrect
import Ncrs.Native.OpenWrite
import Ncrs.Spec.OpenWriteCorrect
import Ncrs.Native.StreamUpload
import Ncrs.Spec.StagingFileCorrect
import Ncrs.Spec.StreamUploadCorrect
import Ncrs.Native.CacheLabels
import Ncrs.Spec.CacheLabelsCorrect
import Ncrs.Native.PassthroughHelper
import Ncrs.Spec.PassthroughHelperCorrect
import Ncrs.Native.Purge
import Ncrs.Spec.PurgeCorrect
import Ncrs.Native.DirOps
import Ncrs.Native.DeleteGuard
import Ncrs.Spec.DirOpsCorrect
import Ncrs.Spec.DeleteGuardCorrect
import Ncrs.Native.RemoteWipe
import Ncrs.Spec.RemoteWipeCorrect
import Ncrs.Native.Echo
import Ncrs.Spec.EchoCorrect
import Ncrs.Native.ChangeWatch
import Ncrs.Spec.ChangeWatchCorrect
import Ncrs.Native.StatusFeed
import Ncrs.Spec.StatusFeedCorrect
import Ncrs.ForStd.KeyedQueues
import Ncrs.ForStd.AList
import Ncrs.Native.FuseSched
import Ncrs.Spec.FuseSchedCorrect
import Ncrs.Native.Quiesce
import Ncrs.Spec.QuiesceCorrect
import Ncrs.Native.FusePool
import Ncrs.Spec.FusePoolCorrect
import Ncrs.Native.MutationPool
import Ncrs.Spec.MutationPoolCorrect
import Ncrs.Native.ChangeFeed
import Ncrs.Spec.ChangeFeedCorrect
import Ncrs.Native.PendingDir
import Ncrs.Spec.PendingDirCorrect
import Ncrs.Native.HandoffLog
import Ncrs.Spec.HandoffLogCorrect
import Ncrs.Native.HandoffDaemon
import Ncrs.ForStd.PEquiv
import Ncrs.Spec.HandoffReplay
import Ncrs.Spec.HandoffContents
import Ncrs.Spec.HandoffIdsCorrect
import Ncrs.Spec.HandoffMirrorCorrect
import Ncrs.Native.IoMode
import Ncrs.Spec.IoModeCorrect
import Ncrs.Native.PassthroughServe
import Ncrs.Spec.PassthroughServeCorrect
import Ncrs.Native.Dns
import Ncrs.Spec.DnsCorrect
import Ncrs.Native.ChangeLogClients
import Ncrs.Spec.ChangeLogCorrect
import Ncrs.Native.Desktop
import Ncrs.Spec.DesktopCorrect
import Ncrs.Spec.JournalDurable
import Ncrs.Native.DirRefresh
import Ncrs.Spec.DirRefreshCorrect
import Ncrs.Native.FuseDispatch
import Ncrs.Spec.FuseDispatchCorrect
import Ncrs.Native.ListedMount
import Ncrs.Spec.ListedMountCorrect
import Ncrs.Spec.PendingUploadCorrect
import Ncrs.Spec.ChunkedFinishCorrect
import Ncrs.Native.Readdir
import Ncrs.Spec.ReaddirCorrect
import Ncrs.Spec.FailedWriteCorrect
import Ncrs.Native.ConflictCopy
import Ncrs.Spec.ConflictCopyCorrect
import Ncrs.Native.PushWatch
import Ncrs.Spec.PushWatchCorrect
import Ncrs.Native.KeptFiles
import Ncrs.Spec.KeptFilesCorrect
import Ncrs.Native.ReadAhead
import Ncrs.Spec.ReadAheadCorrect
import Ncrs.Spec.DirDiffCorrect
import Ncrs.Native.DirStatus
import Ncrs.Spec.DirStatusCorrect
import Ncrs.ForStd.UnstableSort
import Ncrs.Native.DirCacheFile
import Ncrs.Spec.DirCacheFileCorrect
import Ncrs.Native.Recovery
import Ncrs.Spec.RecoveryCorrect
import Ncrs.ForStd.Fields
import Ncrs.Native.IpcLines
import Ncrs.Spec.IpcLinesCorrect
import Ncrs.Native.ValidateSubtree
import Ncrs.Spec.ValidateSubtreeCorrect
import Ncrs.ForStd.Substring
import Ncrs.ForStd.WebUrl
import Ncrs.Native.LoginFlow
import Ncrs.Spec.LoginFlowCorrect
import Ncrs.ForStd.FlatYaml
import Ncrs.Native.ConfigFile
import Ncrs.Spec.ConfigFileCorrect
import Ncrs.ForStd.Forest
import Ncrs.Native.Leftovers
import Ncrs.Spec.LeftoversCorrect
import Ncrs.Spec.SegmentsCorrect
import Ncrs.Native.Throttle
import Ncrs.Spec.ThrottleCorrect
import Ncrs.Native.UploadOrder
import Ncrs.Spec.UploadOrderCorrect
import Ncrs.Native.ChunkedSession
import Ncrs.Spec.ChunkedSessionCorrect
import Ncrs.ForStd.TextLines
import Ncrs.Native.Baloo
import Ncrs.Spec.BalooCorrect
import Ncrs.Native.WatcherEvent
import Ncrs.Spec.WatcherEventCorrect
import Ncrs.ForStd.PercentEncoding
import Ncrs.Native.RemoteHref
import Ncrs.Spec.RemoteHrefCorrect
import Ncrs.ForStd.XmlForest
import Ncrs.Native.Propfind
import Ncrs.Spec.PropfindCorrect
import Ncrs.Spec.MultistatusCorrect
import Ncrs.Spec.PropstatCorrect
import Ncrs.Native.OpenHandles
import Ncrs.Spec.OpenHandlesCorrect
import Ncrs.Native.ReadAheadBudget
import Ncrs.Spec.ReadAheadBudgetCorrect
import Ncrs.Spec.ReplayerCorrect
