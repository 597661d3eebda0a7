import IcebergSST.Enums
import IcebergSST.Coverage
import IcebergSST.Outcome
import IcebergSST.Library.StopAndWait
import IcebergSST.TaskApi
import IcebergSST.Runner
import IcebergSST.History
import IcebergSST.Submission
import IcebergSST.Delivery
import IcebergSST.Validation
import IcebergSST.Attempt
import IcebergSST.Lifecycle
import IcebergSST.ExactlyOnce
import IcebergSST.CrashResume
import IcebergSST.ExactResume
import IcebergSST.Reconcile
import IcebergSST.Text
import IcebergSST.Discovery
import IcebergSST.Cursors
import IcebergSST.Scans
import IcebergSST.PeriodicFull
import IcebergSST.Watermarks
import IcebergSST.Findings
import IcebergSST.AutoResolve
import IcebergSST.Library.Literal
import IcebergSST.Library.Settle
import IcebergSST.Redaction
import IcebergSST.Masking
import IcebergSST.Rendering
import IcebergSST.Snippet
import IcebergSST.Detect
import IcebergSST.Proximity
import IcebergSST.Library.StableSort
import IcebergSST.Library.SelfDelimiting
import IcebergSST.Fingerprint
import IcebergSST.Library.Base64
import IcebergSST.Library.KeysetWalk
import IcebergSST.Library.Calendar
import IcebergSST.Library.FixedWidth
import IcebergSST.Reported
import IcebergSST.RightSet
import IcebergSST.PositionLaw
import IcebergSST.LeakFreedom
import IcebergSST.Library.Machine
import IcebergSST.Requests
import IcebergSST.ResultsBase
import IcebergSST.Acknowledgement
import IcebergSST.Manifest
import IcebergSST.Assurance
import IcebergSST.Restart
import IcebergSST.Trail
import IcebergSST.Interleaving
import IcebergSST.Rotation
import IcebergSST.Gate
import IcebergSST.Datetimes
import IcebergSST.JiraWindows
import IcebergSST.CreatedWindows
import IcebergSST.JiraResume
import IcebergSST.ConfluenceWatermark
import IcebergSST.Library.WriteBack
import IcebergSST.Absorbing
import IcebergSST.Departure
import IcebergSST.Announcements
import IcebergSST.Suppressed
import IcebergSST.Handoff
import IcebergSST.Library.LatestWins
import IcebergSST.Callbacks
import IcebergSST.Correlation
import IcebergSST.Evidence
import IcebergSST.Retention
import IcebergSST.ResponseClock
import IcebergSST.Library.CappedLog
import IcebergSST.Library.ThreeValued
import IcebergSST.Library.PagedQueue
import IcebergSST.Merging
import IcebergSST.Reassembly
import IcebergSST.ManifestRows
import IcebergSST.Escalation
import IcebergSST.Library.UniqueColumn
import IcebergSST.BatchedIngest
import IcebergSST.LiveMap
import IcebergSST.Library.LockOrder
import IcebergSST.RowLocks
import IcebergSST.Scheduler
import IcebergSST.Occurrences
import IcebergSST.Library.StackWalk
import IcebergSST.Library.Squeeze
import IcebergSST.PyText
import IcebergSST.Library.Scanning
import IcebergSST.Wiki
import IcebergSST.WikiCode
import IcebergSST.StorageDocument
import IcebergSST.StorageTags
import IcebergSST.StorageText
import IcebergSST.Adf
import IcebergSST.JsonText
import IcebergSST.PageCursor
import IcebergSST.Pagination
import IcebergSST.Library.Brackets
import IcebergSST.Library.Worklist
import IcebergSST.Library.RollCall
import IcebergSST.Library.RetryQueue
import IcebergSST.Library.RateWindow
import IcebergSST.Backtracking
import IcebergSST.CheckTokens
import IcebergSST.Respelling
import IcebergSST.FileTree
import IcebergSST.Urls
import IcebergSST.Http
import IcebergSST.Extraction
import IcebergSST.PartialText
import IcebergSST.ShareWalk
import IcebergSST.ShareFetch
import IcebergSST.ShareContained
import IcebergSST.ShareOrder
import IcebergSST.ShareResume
import IcebergSST.ShareComplete
import IcebergSST.ShareTask
import IcebergSST.Units
import IcebergSST.ConfluenceComments
import IcebergSST.ConfluencePage
import IcebergSST.ScopeDiscovery
import IcebergSST.JiraIssue
import IcebergSST.JiraFetch
import IcebergSST.DeliveryRounds
import IcebergSST.Users
import IcebergSST.Sessions
import IcebergSST.LoginProtocol
import IcebergSST.CredentialBudget
import IcebergSST.SourceTrail
