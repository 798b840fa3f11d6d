import SyncEngine.Apply.Sweep
import SyncEngine.DirMoves.Execution
import SyncEngine.Plan.ChangeScoped
import SyncEngine.Stage.Pager
import SyncEngine.Apply.Backup
import SyncEngine.Screening.Safety
import SyncEngine.MobileCache.Replica
import SyncEngine.Cache.GapCheck
import SyncEngine.Rows.Answers
import SyncEngine.DriveJob.Accounts
import SyncEngine.Archive.TarWalk
import SyncEngine.Remote.Tree
import SyncEngine.Transfer.Sessions
import SyncEngine.Transfer.Overlong
import SyncEngine.Transfer.RangeSessions
import SyncEngine.Zip.Runs
import SyncEngine.Archive.Feed
import SyncEngine.Archive.HeadUploads
import SyncEngine.Archive.ExtractOrder
import SyncEngine.Archive.ChosenRuns
import SyncEngine.FsTree.Sifted
import SyncEngine.Rows.Snapshot
import SyncEngine.Seeding.Once
import SyncEngine.Live.Debt
import SyncEngine.Thumb.RawScan
import SyncEngine.Thumb.DcSafe
import SyncEngine.Job.ActiveTime
import SyncEngine.HttpProvider.Served
import SyncEngine.Connect.Answered
import SyncEngine.Bin.Retention
import SyncEngine.Bulk.InChunks
import SyncEngine.SevenZ.FolderCursor
import SyncEngine.Plan.SafeOrder
import SyncEngine.Names.OnDisk
import SyncEngine.Ignore.Rules
import SyncEngine.MobileCache.Unsent
import SyncEngine.Live.Changes
import SyncEngine.Screening.Subsumed
import SyncEngine.Apply.MoveRemote
