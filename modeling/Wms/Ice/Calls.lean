import Wms.Ice.Database
import Wms.Lib.Proc

/-!
# What a command of ICE asks

The calls the commands make: operations on the database, the clock, the LB,
proxy files, CREAM and the queues. A command is a program over these calls.

`abort` stands for the end of the process, which no handler survives and
which runs no scope guard. It is what `abort()` does, and what an exception
does that leaves a function whose `throw` list does not name it.
-/

namespace Wms.Ice

open Wms.Lib

/-- The events of the LB, with what they say beyond the job. -/
inductive LbEvent where
  | wmsDequeued (queue : Text)
  | creamTransferStart
  | creamTransferOk
  | creamTransferFail (reason : Text)
  | jobAborted
  | jobDoneFailed
  | iceResubmission (reason : Text)
  | nsEnqueuedStart
  | nsEnqueuedOk
  | nsEnqueuedFail (reason : Text)
  deriving DecidableEq

/-- `JobIdWrapper::RESULT`. -/
inductive RegisterResult where
  | ok
  | delegationIdMismatch
  | delegationProxyError
  | leaseIdMismatch
  | other
  deriving DecidableEq

/-- What CREAM tells of a job it has registered. -/
structure Registered where
  creamJobid : Text
  creamUrl : Text
  dbId : Text
  deriving DecidableEq

/-- How `CreamProxy_Register` ends. -/
inductive RegisterAnswer where
  | result (r : RegisterResult) (job : Registered) (err : Text)
  | blackListFailJob (what : Text)
  | gridProxyDelegation
  | delegation (what : Text)
  | generic (what : Text)
  | base (what : Text)
  | unknown
  deriving DecidableEq

/-- The lists of jobs a start was refused to, with the reasons. -/
structure ResultWrapper where
  notExisting : List Text := []
  notMatchingStatus : List Text := []
  notMatchingDate : List Text := []
  notMatchingProxyDelegationId : List Text := []
  notMatchingLeaseId : List Text := []
  deriving DecidableEq

/-- The first of the lists that has a job in it. -/
def ResultWrapper.refused (r : ResultWrapper) : List Text :=
  let tmp := r.notExisting
  let tmp := if tmp.isEmpty then r.notMatchingStatus else tmp
  let tmp := if tmp.isEmpty then r.notMatchingDate else tmp
  let tmp := if tmp.isEmpty then r.notMatchingProxyDelegationId else tmp
  if tmp.isEmpty then r.notMatchingLeaseId else tmp

/-- How `CreamProxy_Start` ends. An exception may be raised although CREAM has
carried the start out, which the caller cannot see. -/
inductive StartAnswer where
  | result (r : ResultWrapper)
  | raised (what : Text) (carriedOut : Bool)
  deriving DecidableEq

/-- What ICE asks of its data base, of CREAM and of everything else. -/
inductive Call where
  | db (op : DbOp)
  | time
  | log (event : LbEvent) (job : JobRow)
  | copyProxy (source target : Text)
  | computeSha1Digest (proxyfile : Text)
  | generateDelegationID
  | creamDelegate (url certfile delegationId : Text)
  | creamRegister (url proxy jdl delegationId leaseId : Text)
  | creamStart (url proxy jobId : Text)
  /-- `GLITE_WMS_ICE_NORESUBMIT`, the first thing `resubmit_job` asks. -/
  | noResubmit
  | proxyTimeEnd (proxyfile : Text)
  /-- The resubmission request for the workload manager. -/
  | putRequest (gid sequenceCode : Text)
  | removeRequest

/-- `log` gives the sequence code the LB has come to, or none if nothing could
be logged. -/
abbrev Answer : Call → Type
  | .db op => op.Result
  | .time => ℤ
  | .log _ _ => Option Text
  | .copyProxy _ _ => Bool
  | .computeSha1Digest _ => Except Text Text
  | .generateDelegationID => Text
  | .creamDelegate _ _ _ => Except Text Unit
  | .creamRegister _ _ _ _ _ => RegisterAnswer
  | .creamStart _ _ _ => StartAnswer
  | .noResubmit => Bool
  | .proxyTimeEnd _ => ℤ
  | .putRequest _ _ => Except Text Unit
  | .removeRequest => Bool

/-- The exceptions that the commands tell apart. -/
inductive Exception where
  | fatal (what : Text)
  | transient (what : Text)
  | blackListFailJob (what : Text)
  | abort
  /-- The command has not come to its end within the laps it was given. -/
  | unfinished
  deriving DecidableEq

/-- The process goes on, so that handlers and scope guards run. -/
def Exception.isCaught : Exception → Bool
  | .abort => false
  | .unfinished => false
  | _ => true

/-- A program of ICE. -/
abbrev IceProc := Proc Call Answer Exception

open Proc

/-- One call. -/
def ask (c : Call) : IceProc (Answer c) := perform c

/-- One operation in a transaction of its own. -/
def execDb (op : DbOp) : IceProc op.Result := ask (.db op)

/-- `time` -/
def now : IceProc ℤ := ask .time

/-- A scope guard that is dismissed at the end of its scope. -/
def onException (f body : IceProc Unit) : IceProc Unit :=
  body.tryCatch fun e =>
    if e.isCaught then f.bind fun _ => throw e else throw e

/-- A scope guard that is not dismissed. -/
def scopeGuard (f body : IceProc Unit) : IceProc Unit :=
  (onException f body).bind fun _ => f

/-! ## The LB logger (`iceLBLogger`) -/

/-- The statement of `UpdateJob`; its `throw` list does not name what
`token_file` throws. -/
def updateJob (j : CreamJob) : IceProc Unit :=
  match j.writtenToken with
  | none => throw .abort
  | some token => execDb (.updateJob j token)

/-- The new sequence code takes the place of one of the two. -/
def withSeqCode (j : CreamJob) (useCancelSequenceCode : Bool)
    (newSeqCode : Text) : CreamJob :=
  if useCancelSequenceCode then j.setCancelSequenceCode newSeqCode
  else j.setSequenceCode newSeqCode

/-- The row is updated where the caller wants it. -/
def updateJobIf (updatedb : Bool) (j : CreamJob) : IceProc Unit :=
  if updatedb then updateJob j else pure ()

/-- The job comes back with the new code and all flags down, or as it was if
there is no new code. -/
def logEvent (event : LbEvent) (j : CreamJob) (useCancelSequenceCode : Bool)
    (updatedb : Bool) : IceProc CreamJob := do
  match ← ask (.log event j.toJobRow) with
  | none => pure j
  | some newSeqCode =>
      let theJob := withSeqCode j useCancelSequenceCode newSeqCode
      updateJobIf updatedb theJob
      pure theJob.resetChangeFlags

end Wms.Ice
