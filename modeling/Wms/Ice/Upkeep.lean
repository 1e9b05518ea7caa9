import Wms.Ice.Submit
import Wms.Lib.ProcLift

/-!
# Jobs after their submission (`IceCore.cpp`, `iceCommandStatusPoller.cpp`)

What ICE does with the changes of status of a job: they are stored and logged,
and a job that has come to its end leaves the table, is given back to the workload
manager where it failed, and is purged on the CE.

Unregistering a proxy, purging a storage and the purge CREAM is asked for are
calls without an answer, since all that is done with the outcome is to report it.
-/

namespace Wms.Ice

open Wms.Lib Proc

/-- The events that only come with a change of status. -/
inductive StatusEvent where
  | jobRunning
  | jobReallyRunning
  | jobCancelled
  | jobSuspended
  | jobResumed
  | jobDoneOk
  deriving DecidableEq

/-- The calls besides those of a submission. -/
inductive UpkeepCall where
  | log (event : StatusEvent) (job : JobRow)
  | deregisterProxy (gid : Text)
  | checkGridJobID (gid : Text)
  /-- `VOMSWrapper::IsValid`. -/
  | isValid (proxyfile : Text)
  | creamPurge (url proxy jobId : Text)
  | purgeStorage (gid : Text)
  | getJobByCid (cid : Text)
  | tokenExists (path : Text)
  | existsSubsequentToken (path : Text)

/-- The two looks at token files may end in an exception. -/
abbrev UpkeepAnswer : UpkeepCall → Type
  | .log _ _ => Option Text
  | .deregisterProxy _ => Unit
  | .checkGridJobID _ => Bool
  | .isValid _ => Bool
  | .creamPurge _ _ _ => Unit
  | .purgeStorage _ => Unit
  | .getJobByCid _ => Option JobRow
  | .tokenExists _ => Option Bool
  | .existsSubsequentToken _ => Option Bool

/-- The calls of a submission and those of the other threads. -/
abbrev AnyCall : Type := Call ⊕ UpkeepCall

/-- What each of them answers. -/
abbrev AnyAnswer : AnyCall → Type := Sum.elim Answer UpkeepAnswer

/-- A program of one of the threads. -/
abbrev UpkeepProc := Proc AnyCall AnyAnswer Exception

/-- A part of a submission. -/
def ice {α : Type} (p : IceProc α) : UpkeepProc α := p.lift

/-- A call that no submission makes. -/
def inquire (c : UpkeepCall) : UpkeepProc (UpkeepAnswer c) := call (.inr c) ret

/-- A getter gives a job with all flags down. -/
def JobRow.toCreamJob (row : JobRow) : CreamJob :=
  { toJobRow := row, changed := fun _ => false }

namespace CreamJob

/-- `set_worker_node` -/
def setWorkerNode (j : CreamJob) (s : Text) : CreamJob :=
  { j with workerNode := s, changed := j.touch .workerNode }

/-- The field is an `unsigned short`, as is the next one. -/
def setExitCode (j : CreamJob) (n : ℤ) : CreamJob :=
  { j with exitCode := (n % 2 ^ 16).toNat, changed := j.touch .exitCode }

/-- `set_num_logged_status_changes`, an `unsigned short`. -/
def setNumLoggedStatusChanges (j : CreamJob) (n : ℕ) : CreamJob :=
  { j with
    numLoggedStatusChanges := n % 2 ^ 16
    changed := j.touch .numLoggedStatusChanges }

/-- `is_active` -/
def isActive (j : CreamJob) : Bool :=
  !j.killedByice &&
    match j.status with
    | .registered | .pending | .idle | .running | .reallyRunning | .held => true
    | _ => false

end CreamJob

/-! ## `IceCore` -/

/-- The statuses with which a job leaves the table. -/
def isTerminal : JobStatus → Bool
  | .doneOk | .cancelled | .doneFailed | .aborted => true
  | _ => false

/-- The job is only looked for, and nothing is done about one that has left. -/
def purgeJob (purgeJobs : Bool) (job : CreamJob) : UpkeepProc Unit := do
  if ← inquire (.checkGridJobID job.gridJobid) then
    if purgeJobs then
      let betterProxy ← ice (getAnyBetterProxyByDN job.userDn)
      let proxy := ((withProxyfile betterProxy).map ProxyRow.proxyfile).getD
        job.userProxyfile
      if ← inquire (.isValid proxy) then
        inquire (.creamPurge job.creamAddress proxy job.creamJobid)
      else pure ()
    else pure ()
  else pure ()

/-- The first step of a job that ends well or at a request. -/
def deregisterIfEnded (job : CreamJob) : UpkeepProc Unit :=
  if job.status = .cancelled || job.status = .doneOk then
    inquire (.deregisterProxy job.gridJobid)
  else pure ()

/-- `resubmit_or_purge_job`, the part that removes the row. -/
def removeIfTerminal (job : CreamJob) : UpkeepProc Unit := do
  if isTerminal job.status then
    ice (releaseProxy job)
    ice (execDb (.removeJobByGid job.gridJobid))
  else pure ()

/-- `resubmit_or_purge_job`, the part that resubmits. -/
def resubmitIfFailed (job : CreamJob) : UpkeepProc Unit :=
  if (job.status = .doneFailed || job.status = .aborted) && !job.killedByice then
    ice (resubmitJob job "Job resubmitted by ICE".toList)
  else pure ()

/-- `resubmit_or_purge_job`, the part that purges. -/
def purgeIfTerminal (purgeJobs : Bool) (job : CreamJob) : UpkeepProc Unit :=
  if isTerminal job.status then purgeJob purgeJobs job else pure ()

/-- The files of a cancelled job go. -/
def purgeStorageIfCancelled (job : CreamJob) : UpkeepProc Unit :=
  if job.status = .cancelled then inquire (.purgeStorage job.gridJobid) else pure ()

/-- The entry goes before the job is purged. -/
def resubmitOrPurgeJob (purgeJobs : Bool) (job : CreamJob) : UpkeepProc Bool := do
  deregisterIfEnded job
  removeIfTerminal job
  resubmitIfFailed job
  purgeIfTerminal purgeJobs job
  purgeStorageIfCancelled job
  pure (isTerminal job.status)

/-! ## Jobs that are not followed any more -/

/-- A look at a token file; an exception leaves the poller. -/
def look (c : Option Bool) : UpkeepProc Bool :=
  match c with
  | some b => pure b
  | none => throw .abort

/-- `IceUtils::ignore_job`. A token file that cannot be named ends the look in an
exception that is caught. -/
def ignoreJob (cid : Text) : UpkeepProc Bool := do
  match ← inquire (.getJobByCid cid) with
  | none => pure true
  | some job =>
      if job.creamJobid.isEmpty then pure true
      else
        match CreamJob.tokenFileOf job.tokenFile with
        | none => pure false
        | some token =>
            if ← look (← inquire (.tokenExists token)) then pure false
            else look (← inquire (.existsSubsequentToken token))

/-! ## Events of the LB -/

/-- `iceLBEventFactory::mkEvent`. -/
def mkEvent (j : CreamJob) (forceDonefailed : Bool) : Option (LbEvent ⊕ StatusEvent) :=
  match j.status with
  | .running =>
      some (.inr (if j.prevStatus = .held then .jobResumed else .jobRunning))
  | .reallyRunning => some (.inr .jobReallyRunning)
  | .cancelled =>
      some (if j.killedByice then .inl .jobAborted else .inr .jobCancelled)
  | .held => some (.inr .jobSuspended)
  | .aborted => some (.inl (if forceDonefailed then .jobDoneFailed else .jobAborted))
  | .doneOk => some (.inr .jobDoneOk)
  | .doneFailed => some (.inl .jobDoneFailed)
  | _ => none

/-- `iceLBLogger::logEvent`, for the other events. -/
def logStatusEvent (event : StatusEvent) (j : CreamJob)
    (useCancelSequenceCode updatedb : Bool) : UpkeepProc CreamJob := do
  match ← inquire (.log event j.toJobRow) with
  | none => pure j
  | some newSeqCode =>
      let theJob := withSeqCode j useCancelSequenceCode newSeqCode
      ice (updateJobIf updatedb theJob)
      pure theJob.resetChangeFlags

/-- An event of either kind is logged to the L&B. -/
def logAnyEvent (event : LbEvent ⊕ StatusEvent) (j : CreamJob)
    (useCancelSequenceCode updatedb : Bool) : UpkeepProc CreamJob :=
  match event with
  | .inl e => ice (logEvent e j useCancelSequenceCode updatedb)
  | .inr e => logStatusEvent e j useCancelSequenceCode updatedb

/-! ## The poller -/

/-- A change of status, as CREAM tells it. -/
structure StatusChange where
  status : JobStatus
  exitCode : Text := []
  failureReason : Text := []
  description : Text := []
  deriving DecidableEq

/-- `JobInfoWrapper`, as far as it is read. -/
structure JobInfo where
  gridJobid : Text
  workerNode : Text
  statusChanges : List StatusChange
  deriving DecidableEq

/-- `lexical_cast<int>`: the whole text is a number, and it is an `int`. -/
def lexicalCastToInt (s : Text) : Option ℤ :=
  let number := splitSign s
  let n : ℤ := digitsValue number.2
  let v := if number.1 then -n else n
  if number.2.isEmpty || !number.2.all Char.isDigit then none
  else if v < -2 ^ 31 || 2 ^ 31 ≤ v then none
  else some v

/-- A change that tells of more than a start goes to the statistics. -/
def insertStatOf (status : JobStatus) : UpkeepProc Unit :=
  match status with
  | .registered | .pending | .idle => pure ()
  | status => ice (execDb (.insertStat status))

/-- The job with a change written into it, which is the `count`-th. -/
def withChange (job : CreamJob) (count : ℕ) (change : StatusChange) : CreamJob :=
  let job := job.setStatus change.status
  let job := job.setExitCode ((lexicalCastToInt change.exitCode).getD 0)
  let job := job.setFailureReason
    (if change.status = .cancelled then change.description else change.failureReason)
  job.setNumLoggedStatusChanges count

/-- One change of status: the job, its row, what is logged and what follows. -/
def storeChange (job : CreamJob) (count : ℕ) (change : StatusChange) :
    UpkeepProc CreamJob := do
  insertStatOf change.status
  let job := withChange job count change
  ice (updateJob job)
  pure job.resetChangeFlags

/-- The event of the change that was stored last. -/
def logChange (job : CreamJob) : UpkeepProc CreamJob :=
  match mkEvent job true with
  | none => pure job
  | some event =>
      logAnyEvent event job
        (job.status = .cancelled && !job.cancelSequenceCode.isEmpty) true

/-- A job that is active is never ignored. -/
def ignored (job : CreamJob) : UpkeepProc Bool :=
  if job.isActive then pure false else ignoreJob job.completeCreamJobid

/-- A job CREAM has purged is forgotten. -/
def forget (job : CreamJob) : UpkeepProc Unit := do
  ice (releaseProxy job)
  ice (execDb (.removeJobByGid job.gridJobid))

/-- The loop over the changes, the first of which is the `count`-th. What becomes
of the job is not looked at. -/
def statusLoop (purgeJobs : Bool) : ℕ → CreamJob → List StatusChange → UpkeepProc Unit
  | _, _, [] => pure ()
  | count, job, change :: changes =>
      if change.status = .purged then forget job
      else if job.numLoggedStatusChanges < count then do
        let job ← storeChange job count change
        if ← ignored job then pure ()
        else
          let job ← logChange job
          let _ ← resubmitOrPurgeJob purgeJobs job
          statusLoop purgeJobs (count + 1) job changes
      else statusLoop purgeJobs (count + 1) job changes

/-- A poller that has been stopped does nothing. -/
def updateSingleJob (purgeJobs stopped : Bool) (info : JobInfo) : UpkeepProc Unit :=
  if stopped then pure ()
  else do
    match ← ice (execDb (.getJobByGid info.gridJobid)) with
    | none => pure ()
    | some row =>
        statusLoop purgeJobs 1 (row.toCreamJob.setWorkerNode info.workerNode)
          info.statusChanges

end Wms.Ice
