import Wms.Interface.Calls

/-!
# The event logger (`src/org.glite.wms.interface/src/eventlogger/eventlogger.cpp`)

Logging and querying with their retries, and the two questions that decide
whether a job may be started: are the events of the job such that it has not
been started yet, and has it been aborted.
-/

namespace Wms.Interface

open Wms.Lib
open Wms.Core (EnQueuedResult)

/-- How often an event is logged again. -/
def logRetryCount : ℕ := 3

/-- How often a query is made again. -/
def queryRetryCount : ℕ := 3

/-! ## Logging -/

/-- A logging call under `testAndLog`, with so many retries left: an error
that is not worth a retry counts as a success. -/
def logLaps (log : WmpProc LogResult) (left : ℕ) : WmpProc Unit := do
  let r ← log
  match r with
  | .logged _ => pure ()
  | .refused => pure ()
  | .failed =>
      match left with
      | 0 =>
          .throw (.lb ("Unable to complete operation: LB call retried 3 times, " ++
            "always failed\n(please contact server administrator)"))
      | n + 1 => logLaps log n

/-- `logEvent`, which fails after the last try. -/
def logEvent (kind : EventKind) : WmpProc Unit :=
  logLaps (ask (.logEvent kind)) logRetryCount

/-- The same when the logger has been set to a node of a DAG. -/
def logNodeEvent (node : String) (kind : EventKind) : WmpProc Unit :=
  logLaps (ask (.logNodeEvent node kind)) logRetryCount

/-- The calls that retry on every error, and tell whether they succeeded. -/
def logTries (kind : EventKind) : ℕ → WmpProc Bool
  | 0 => pure false
  | n + 1 => do
      let r ← ask (.logEvent kind)
      match r with
      | .logged _ => pure true
      | _ => logTries kind n

/-- An Abort event, and whether it was logged. -/
def logAbortEventSync (reason : String) : WmpProc Bool :=
  logTries (.abort reason) logRetryCount

/-- `logListener` -/
def logListener : WmpProc Unit := do
  if ← logTries .listener logRetryCount then pure ()
  else .throw (.lb "Register log listener failed\nedg_wll_LogListener[Proxy]")

/-! ## Querying -/

/-- One query. An LB proxy that has no events is not asked again, and the LB
is asked in its place. -/
def queryOnce (proxy : Bool) (q : Query) :
    WmpProc (Except QueryError (List Event) × Bool) := do
  let r ← ask (.queryEvents proxy q)
  match proxy, r with
  | true, .error .noEntry =>
      let r ← ask (.queryEvents false q)
      pure (r, false)
  | _, _ => pure (r, proxy)

/-- `testAndQuery`, with so many laps left. -/
def queryLaps (q : Query) : Bool → ℕ →
    WmpProc (Except QueryError (List Event))
  | _, 0 => pure (.error (.definite 1))
  | proxy, n + 1 => do
      let (r, proxy) ← queryOnce proxy q
      match r with
      | .error (.temporary code) =>
          if n = 0 then pure (.error (.temporary code))
          else queryLaps q proxy n
      | r => pure r

/-- `testAndQuery`: no events, an error, or events. -/
def testAndQuery (cfg : Config) (q : Query) :
    WmpProc (Except QueryError (List Event)) :=
  queryLaps q cfg.lbProxy queryRetryCount

/-! ## The permission to start -/

/-- `regJobEvent`: what the registration of a job says. -/
structure RegJobEvent where
  srcInstance : String := ""
  jdl : String := ""
  parent : String := ""

/-- The loop over the events: the registration as far as it was seen, and
whether the job was accepted or enqueued. -/
def scanStart (event : RegJobEvent) (flag : Bool) :
    List Event → Except Exn (RegJobEvent × Bool)
  | [] => .ok (event, flag)
  | e :: es =>
      match e.kind with
      | .regJob srcInstance jdl parent =>
          scanStart
            ⟨srcInstance.getD event.srcInstance, jdl.getD event.jdl,
              parent.getD event.parent⟩ flag es
      | .userTag => scanStart event flag es
      | .accepted => scanStart event true es
      | .enQueued _ _ => scanStart event true es
      | .abort _ =>
          .error (.jobOperation .operationNotAllowed
            "job state (ABORTED) doesn't allow start operation")
      | .cancel =>
          .error (.jobOperation .operationNotAllowed
            "job state (CANCELLED) doesn't allow start operation")
      | _ =>
          .error (.jobOperation .operationNotAllowed
            "unable to complete the operation")

/-- The sequence code to go on from, by the type of the last event. A job that
was accepted or enqueued may be started only if that failed. -/
def startSeqcode (flag : Bool) (last : Event) : Except Exn String :=
  if flag then
    match last.kind with
    | .enQueued .fail _ => .ok last.seqcode
    | _ =>
        .error (.jobOperation .operationNotAllowed
          "job started or start operation already in progress")
  else
    match last.kind with
    | .regJob _ _ _ => .ok last.seqcode
    | .userTag => .ok last.seqcode
    | _ => .ok ""

/-- What the events say; LB never answers with an empty list. -/
def startAllowed (events : List Event) : Except Exn (String × RegJobEvent) := do
  let (event, flag) ← scanStart {} false events
  match events.getLast? with
  | none => .ok ("", event)
  | some last => do
      let seqcode ← startSeqcode flag last
      .ok (seqcode, event)

/-- `isStartAllowed`: the sequence code to go on with, or none. -/
def isStartAllowed (cfg : Config) : WmpProc (String × RegJobEvent) := do
  let r ← testAndQuery cfg .networkServer
  match r with
  | .error _ => .throw (.lb ("Unable to get events for job: " ++ cfg.jobId))
  | .ok events => Proc.ofExcept (startAllowed events)

/-- The sequence code of the last event. -/
def getLastEventSeqCode (cfg : Config) : WmpProc String := do
  let r ← testAndQuery cfg .networkServer
  match r with
  | .error _ => .throw (.lb ("Unable to get events for job: " ++ cfg.jobId))
  | .ok events => pure ((events.getLast?.map fun e => e.seqcode).getD "")

/-- The reason of an Abort event. -/
def abortReason (e : Event) : String :=
  match e.kind with
  | .abort reason => reason
  | _ => ""

/-- The reason of the first abort, if there is one. -/
def isAborted (cfg : Config) : WmpProc (Option String) := do
  let r ← testAndQuery cfg .aborts
  match r with
  | .error .noEntry => pure none
  | .error _ => .throw (.lb "Unable to query LB and LBProxy")
  | .ok events => pure (some ((events.head?.map abortReason).getD ""))

end Wms.Interface
