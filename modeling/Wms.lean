import Wms.Lib.Instances
import Wms.Lib.Lines
import Wms.Lib.Lts
import Wms.Lib.Multimap
import Wms.Lib.Proc
import Wms.Core.Events
import Wms.Core.Job
import Wms.Core.Calls
import Wms.Core.LbUtils
import Wms.Core.SubmissionUtils
import Wms.Core.WmReal
import Wms.Core.SubmitRequest
import Wms.Core.Recovery
import Wms.Core.Restart
import Wms.Proofs.EventQueue
import Wms.Proofs.Stages
import Wms.Proofs.Outcomes
import Wms.Proofs.Restart
import Wms.Core.Replanner
import Wms.Core.Budget
import Wms.Proofs.Budget
import Wms.Core.JobAdapter
import Wms.Core.Sandbox
import Wms.Proofs.Tokens
import Wms.Proofs.Sandbox
import Wms.Interface.Calls
import Wms.Interface.EventLogger
import Wms.Lib.RecordLock
import Wms.Interface.CoreOperations
import Wms.Interface.Start
import Wms.Proofs.Phases
import Wms.Proofs.Start
import Wms.Proofs.Cancel
import Wms.Lib.Transcript
import Wms.Interface.Retry
import Wms.Proofs.Retry
import Wms.Proofs.StartOutcomes
import Wms.Proofs.Repeat
import Wms.Interface.Dirmanager
import Wms.Proofs.Dirmanager
import Wms.Proofs.Confined
import Wms.Core.Supermarket
import Wms.Proofs.Supermarket
import Wms.Interface.Gacl
import Wms.Proofs.Gacl
import Wms.Ice.CreamJob
import Wms.Ice.Database
import Wms.Ice.Calls
import Wms.Ice.Proxies
import Wms.Ice.Submit
import Wms.Ice.Restart
import Wms.Proofs.Submission
import Wms.Proofs.Resubmit
import Wms.Proofs.Resume
import Wms.Ice.ThreadPool
import Wms.Proofs.ThreadPool
import Wms.Jobsubmission.FileContainer
import Wms.Jobsubmission.FileOperations
import Wms.Proofs.FileList
import Wms.Proofs.FileRecovery
import Wms.Proofs.FileChange
import Wms.Proofs.FileRemoval
import Wms.Proofs.FileErasure
import Wms.Proofs.FileSequence
import Wms.Proofs.FileStop
import Wms.Proofs.FileUndo
import Wms.Proofs.InsertionStop
import Wms.Proofs.RemovalStop
import Wms.Proofs.CompactionStop
import Wms.Proofs.FilePlan
import Wms.Proofs.RecoveryStop
import Wms.Core.CancelRequest
import Wms.Proofs.CancelRequest
import Wms.Core.DagRequest
import Wms.Proofs.DagRequest
import Wms.Core.BulkMatch
import Wms.Proofs.BulkMatch
import Wms.Proofs.BrokerInfo
import Wms.Jobsubmission.SizeFile
import Wms.Proofs.SizeFile
import Wms.Jobsubmission.LogMonitor
import Wms.Jobsubmission.JobWrapperOutput
import Wms.Proofs.LogMonitor
import Wms.Jobsubmission.FileList
import Wms.Proofs.ListOperations
import Wms.Proofs.ListRefinement
import Wms.Core.Replans
import Wms.Proofs.Replans
import Wms.Proofs.Reschedule
import Wms.Common.Manipulation
import Wms.Proofs.Manipulation
import Wms.Core.Matchmaker
import Wms.Proofs.Matchmaker
import Wms.Core.Broker
import Wms.Proofs.Broker
import Wms.Core.MatcherHelper
import Wms.Proofs.MatcherHelper
import Wms.Core.CollectionRecovery
import Wms.Proofs.CollectionRecovery
import Wms.Lib.Shell
import Wms.Core.AdapterResolve
import Wms.Proofs.JobWrapper
import Wms.Proofs.AdapterResolve
import Wms.Proofs.Attributes
import Wms.Core.Purchaser
import Wms.Lib.Registers
import Wms.Proofs.Purchaser
import Wms.Core.BdiiFetch
import Wms.Proofs.BdiiFetch
import Wms.Proofs.Registration
import Wms.Interface.OutputSandbox
import Wms.Proofs.OutputSandbox
import Wms.Interface.Execv
import Wms.Proofs.Execv
import Wms.Proofs.GaclEdits
import Wms.Lib.Quoting
import Wms.Ice.JobQueries
import Wms.Proofs.JobQueries
import Wms.Proofs.JobTable
import Wms.Interface.Watch
import Wms.Proofs.Watch
import Wms.Ice.Upkeep
import Wms.Proofs.Cleanup
import Wms.Proofs.Polling
import Wms.Proofs.TimeStamp
import Wms.Lib.Runs
import Wms.Interface.Utils
import Wms.Proofs.Utils
import Wms.Lib.Pattern
import Wms.Ice.IceUtils
import Wms.Proofs.SandboxLists
import Wms.Lib.SortedVector
import Wms.Jobsubmission.RamContainer
import Wms.Proofs.RamContainer
import Wms.Lib.ClassAd
import Wms.Jobsubmission.Timer
import Wms.Proofs.Timer
import Wms.Lib.Columns
import Wms.Lib.Fresh
import Wms.Common.Jobdir
import Wms.Proofs.Jobdir
import Wms.Ice.MainLoop
import Wms.Proofs.MainLoop
import Wms.Lib.Groups
import Wms.Ice.EventQuery
import Wms.Proofs.EventQuery
import Wms.Proofs.EventOrder
import Wms.Jobsubmission.IdContainer
import Wms.Proofs.IdContainer
import Wms.Proofs.IdFile
import Wms.Proofs.IdRefinement
import Wms.Proofs.JobWrapperOutput
import Wms.Proofs.JobEnd
import Wms.Lib.Interference
import Wms.Ice.Renewal
import Wms.Proofs.ProxySections
import Wms.Proofs.Renewal
