import Wms.Ice.Proxies

/-!
# The submission command (`iceCommandSubmit`)

`execute` looks for an entry of the job first. The status of the entry says how
far an earlier attempt has come: `UNKNOWN` up to the registration, `REGISTERED`
between the registration and the start, anything else after the start.

The loop around the registration has no bound in the source. It gets a number
of laps here and ends with `unfinished` when they are used up.

`try_to_submit` changes the member `m_theJob`, and the handlers of its
exceptions go on with it, so it returns the job together with its outcome.
-/

namespace Wms.Ice

open Wms.Lib Proc

/-- The outcome of a part of a command that is caught by the command. -/
def attempt {α : Type} (p : IceProc α) : IceProc (Except Exception α) :=
  (p.bind fun a => pure (.ok a)).tryCatch fun e =>
    if e.isCaught then pure (.error e) else throw e

/-! ## `IceCore::resubmit_job` -/

/-- `resubmit_job`: the job goes back to the manager. -/
def resubmitJob (job : CreamJob) (reason : Text) : IceProc Unit := do
  if ← ask .noResubmit then pure ()
  else
    let proxyTimeEnd ← ask (.proxyTimeEnd job.userProxyfile)
    let t ← now
    if proxyTimeEnd ≤ t + 300 then
      let useCancelSeqcode :=
        job.status = .cancelled && !job.cancelSequenceCode.isEmpty
      let _ ← logEvent .jobAborted job useCancelSeqcode true
      pure ()
    else
      let theJob ← logEvent (.iceResubmission reason) job false true
      let theJob ← logEvent .nsEnqueuedStart theJob false true
      match ← ask (.putRequest theJob.gridJobid theJob.sequenceCode) with
      | .ok () =>
          let _ ← logEvent .nsEnqueuedOk theJob false true
          pure ()
      | .error what =>
          let _ ← logEvent (.nsEnqueuedFail what) theJob false true
          let theJob :=
            theJob.setFailureReason ("resubmission failed: ".toList ++ what)
          let _ ← logEvent .jobAborted theJob false true
          pure ()

section Command

variable (lib : Libraries) (cfg : Config)

/-! ## Delegation and registration -/

/-- What a lap of the loop leaves for the next. -/
structure Forced where
  delegation : Bool := false
  lease : Bool := false
  deriving DecidableEq

/-- The caller takes a row without a proxy file for none. -/
def withProxyfile (info : Option ProxyRow) : Option ProxyRow :=
  info.filter fun r => !r.proxyfile.isEmpty

/-- The better proxy is replaced by one that lasts longer. -/
def lengthenBetterProxy (job : CreamJob) (sbp : ProxyRow) : IceProc Bool :=
  if sbp.exptime < job.isbproxyTimeEnd then
    updateBetterProxy lib cfg job.userDn job.myproxyAddress job.userProxyfile
      job.isbproxyTimeEnd
  else pure true

/-- The proxy of the pair is brought up to date, and a delegation that is
about to expire is replaced. -/
def refreshBetterProxy (job : CreamJob) (force : Bool) : IceProc Bool := do
  match withProxyfile
      (← getExactBetterProxyByDN job.userDn job.myproxyAddress) with
  | none =>
      let _ ← setBetterProxy lib cfg job.userDn job.userProxyfile
        job.myproxyAddress job.isbproxyTimeEnd 0
      pure true
  | some sbp =>
      let _ ← lengthenBetterProxy lib cfg job sbp
      let deleg ← execDb
        (.getDelegation job.userDn job.creamAddress job.myproxyAddress)
      let t ← now
      let expires := (deleg.map DelegationRow.exptime).getD 0
      pure (force || decide (expires < t + 2 * cfg.proxyRenewalFrequency))

/-- Whether the delegation is to be forced. -/
def forceDelegation (job : CreamJob) (force : Bool) : IceProc Bool :=
  if job.proxyRenewable then refreshBetterProxy lib cfg job force
  else pure force

/-- `handle_delegation`, which delegates again where what is there is too short. -/
def handleDelegation (job : CreamJob) (force : Bool) :
    IceProc (Bool × Text) := do
  let force ← forceDelegation lib cfg job force
  match ← delegate job job.proxyRenewable force with
  | .ok delegation => pure (force, delegation)
  | .error what =>
      throw (.transient ("Failed to create a delegation id for job ".toList ++
        job.gridJobid ++ ": reason is ".toList ++ what))

/-- Whether leases are asked for. -/
def leaseEnabled : Bool := decide (0 < cfg.leaseDeltaTime)

/-- An attempt at a registration; an error is another lap of the loop. -/
def registerJob (job : CreamJob) (delegation leaseId : Text)
    (forced : Forced) :
    IceProc (Except Forced (RegisterResult × Registered × Text)) := do
  match ← ask (.creamRegister job.creamAddress job.userProxyfile
      job.modifiedJdl delegation leaseId) with
  | .result r registered err => pure (.ok (r, registered, err))
  | .blackListFailJob what => throw (.blackListFailJob what)
  | .gridProxyDelegation =>
      redelegate job.userProxyfile job.creamDelegAddress delegation
      pure (.error forced)
  | .delegation what =>
      if forced.delegation then
        throw (.transient
          ("CREAM Register raised DelegationException ".toList ++ what))
      else pure (.error { forced with delegation := true })
  | .generic what =>
      if leaseEnabled cfg && !forced.lease then
        pure (.error { forced with lease := true })
      else
        throw (.transient
          ("CREAM Register raised GenericFault ".toList ++ what))
  | .base what =>
      throw (.transient
        ("CREAM Register raised std::exception ".toList ++ what))
  | .unknown => throw (.transient "Unknown exception catched".toList)

/-- `none` ends the loop. -/
def processResult (forced : Forced) (r : RegisterResult) (err : Text) :
    Except Exception (Option Forced) :=
  match r with
  | .ok => .ok none
  | .delegationIdMismatch | .delegationProxyError =>
      if forced.delegation then
        .error (.transient
          ("CREAM Register returned delegation error \"".toList ++ err ++
            ['"']))
      else .ok (some { forced with delegation := true })
  | .leaseIdMismatch =>
      if leaseEnabled cfg && !forced.lease then
        .ok (some { forced with lease := true })
      else
        .error (.transient
          ("CREAM Register returned lease id mismatch \"".toList ++ err ++
            ['"']))
  | .other =>
      .error (.transient
        ("CREAM Register returned error \"".toList ++ err ++ ['"']))

/-- The loop around the registration. The lease it processes is not made any
more, so that its identifier stays empty. -/
def registerLoop (job : CreamJob) : ℕ → Forced → IceProc (Text × Registered)
  | 0, _ => throw .unfinished
  | laps + 1, forced => do
      let (force, delegation) ← handleDelegation lib cfg job forced.delegation
      let forced := { forced with delegation := force }
      match ← registerJob cfg job delegation [] forced with
      | .error forced => registerLoop job laps forced
      | .ok (r, registered, err) =>
          match ← ofExcept (processResult cfg forced r err) with
          | none => pure (delegation, registered)
          | some forced => registerLoop job laps forced

/-! ## `try_to_submit` -/

/-- What a start needs: the identifiers CREAM has given to the job, as texts. -/
structure ToStart where
  creamUrl : Text := []
  jobId : Text := []
  dbid : Text := []

/-- The job as it is written when CREAM has started it. -/
def startedJob (job : CreamJob) (toStart : ToStart) : CreamJob :=
  let job := job.setCreamJobid cfg toStart.jobId
  let job := job.setStatus .idle
  let job := job.setWnSequenceCode job.sequenceCode
  job.setCreamDbid (strtoull toStart.dbid)

/-- The statement that writes `IDLE` is executed once more at the end, where
the time of the last visit was meant. -/
def recordStart (started : CreamJob) :
    IceProc (CreamJob × Except Exception Unit) := do
  updateJob started
  let job ← logEvent .creamTransferOk started.resetChangeFlags false true
  let t ← now
  updateJob started
  pure (job.setLastSeen t, .ok ())

/-- The job is started; what CREAM refuses is transient. -/
def startJob (job : CreamJob) (toStart : ToStart) :
    IceProc (CreamJob × Except Exception Unit) := do
  execDb (.insertStat .registered)
  match ← ask (.creamStart toStart.creamUrl job.userProxyfile toStart.jobId) with
  | .raised what _ =>
      pure (job, .error (.transient
        ("CREAM Start raised exception ".toList ++ what)))
  | .result res =>
      match res.refused with
      | errMex :: _ =>
          pure (job, .error (.transient
            ("CREAM Start failed due to error ".toList ++ errMex)))
      | [] =>
          execDb (.insertStat .idle)
          recordStart (startedJob cfg job toStart)

/-- The job as it is written when CREAM has registered it. -/
def registeredJob (job : CreamJob) (delegation : Text)
    (registered : Registered) : CreamJob :=
  let job := (job.setDelegationId delegation).setLeaseId []
  let job := job.setStatus .registered
  let job := job.setCreamDbid (strtoull registered.dbId)
  let job := job.setCompleteCreamJobid
    (CreamJob.completeId cfg registered.creamUrl registered.creamJobid)
  job.setCreamJobid cfg registered.creamJobid

/-- The numeric identifier is assigned to a text, which makes it the character
of that code. -/
def readBack (row : Option JobRow) : ToStart :=
  match row with
  | none => {}
  | some tmp =>
      { creamUrl := tmp.creamAddress
        jobId := tmp.creamJobid
        dbid := [Char.ofNat (tmp.creamDbid % 256)] }

/-- What a job with an expired proxy is refused with. -/
def expiredMessage (job : CreamJob) : Text :=
  "Authentication error: proxyfile [".toList ++ job.userProxyfile ++
    "] is expired! Skipping submission of the job [".toList ++
    job.gridJobid ++ [']']

/-- `try_to_submit` -/
def tryToSubmit (laps : ℕ) (onlyStart : Bool) (job : CreamJob) :
    IceProc (CreamJob × Except Exception Unit) := do
  let t ← now
  if job.isbproxyTimeEnd ≤ t then
    pure (job, .error (.transient (expiredMessage job)))
  else if onlyStart then
    let row ← execDb (.getJobByGid job.gridJobid)
    startJob cfg job (readBack row)
  else
    let job ← logEvent (.wmsDequeued cfg.input) job false true
    let job ← logEvent .creamTransferStart job false true
    match ← attempt (registerLoop lib cfg job laps {}) with
    | .error e => pure (job, .error e)
    | .ok (delegation, registered) =>
        execDb (.insertStartedJobs registered.creamUrl job.gridJobid
          registered.creamJobid)
        let job := registeredJob cfg job delegation registered
        updateJob job
        startJob cfg job.resetChangeFlags
          { creamUrl := registered.creamUrl
            jobId := registered.creamJobid
            dbid := registered.dbId }

/-! ## `execute` -/

/-- The proxy a job brings. -/
def saveProxy (job : CreamJob) : IceProc Bool :=
  if job.proxyRenewable then
    incrementUserProxyCounter lib cfg job job.isbproxyTimeEnd
  else
    setUserProxyIfLongerLegacy lib cfg job.userDn job.userProxyfile
      job.isbproxyTimeEnd

/-- The entry of a job that is not only to be started. -/
def createEntry (onlyStart : Bool) (job : CreamJob) : IceProc CreamJob := do
  if onlyStart then pure job
  else
    execDb (.createJob job.toJobRow)
    let job := job.resetChangeFlags
    let _ ← saveProxy lib cfg job
    pure job

/-- A job that leaves takes its count with it. -/
def releaseProxy (job : CreamJob) : IceProc Unit := do
  if job.proxyRenewable then
    let _ ← decrementUserProxyCounter job.userDn job.myproxyAddress
    pure ()
  else pure ()

/-- What the L&B is told of a failure. -/
def transferFailure (what : Text) : Text :=
  "Transfer to CREAM failed due to exception: ".toList ++ what

/-- The handlers around `try_to_submit`. Only the one for a CREAM that is
blacklisted leaves the entry. -/
def handleFailure (job : CreamJob) : Exception → IceProc Unit
  | .fatal what => do
      let job ← logEvent (.creamTransferFail (transferFailure what)) job false
        true
      let reason :=
        "Transfer to CREAM [".toList ++ job.creamAddress ++
          "] failed due to exception: ".toList ++ what
      let job ← logEvent .jobAborted (job.setFailureReason reason) false false
      releaseProxy job
      throw (.fatal reason)
  | .transient what => do
      let job := job.setFailureReason (transferFailure what)
      let job ← logEvent (.creamTransferFail what) job false false
      let job ← logEvent .jobDoneFailed job false false
      resubmitJob job ("Resubmitting because of exception ".toList ++ what ++
        " CEUrl [".toList ++ job.creamAddress ++ [']'])
      releaseProxy job
      throw (.fatal ("Error submitting job to CE [".toList ++
        job.creamAddress ++ "]: ".toList ++ what))
  | .blackListFailJob _ => do
      let job := job.setFailureReason
        ("Job scheduled to the blacklisted CE [".toList ++ job.creamAddress ++
          "] will be aborted immediately as specified in the WMS ".toList ++
          "configuration".toList)
      let _ ← logEvent .jobAborted (job.setStatus .aborted) false false
      pure ()
  | e => throw e

/-- The attempt, and what is done about its failure. -/
def submit (laps : ℕ) (onlyStart : Bool) (job : CreamJob) : IceProc Unit := do
  let job ← createEntry lib cfg onlyStart job
  match ← tryToSubmit lib cfg laps onlyStart job with
  | (_, .ok ()) => pure ()
  | (job, .error e) => handleFailure job e

/-- `Request_source_purger`. -/
def purgeRequest : IceProc Unit := do
  if ← ask .removeRequest then pure () else throw .abort

/-- The entry goes if the submission ends in an exception. -/
def submitGuarded (laps : ℕ) (onlyStart : Bool) (job : CreamJob) :
    IceProc Unit :=
  onException (execDb (.removeJobByGid job.gridJobid))
    (submit lib cfg laps onlyStart job)

/-- What is done with the entry found. -/
def resume (laps : ℕ) (job : CreamJob) (entry : Option JobRow) :
    IceProc Unit :=
  match entry.map JobRow.status with
  | none => submitGuarded lib cfg laps false job
  | some .unknown => do
      execDb (.removeJobByGid job.gridJobid)
      submitGuarded lib cfg laps false job
  | some .registered => submitGuarded lib cfg laps true job
  | some _ => pure ()

/-- `execute`: a job that was there before a restart goes on. -/
def execute (laps : ℕ) (job : CreamJob) : IceProc Unit :=
  scopeGuard purgeRequest do
    let entry ← execDb (.getJobByGid job.gridJobid)
    resume lib cfg laps job entry

end Command

end Wms.Ice
