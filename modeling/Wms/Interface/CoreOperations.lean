import Wms.Interface.EventLogger

/-!
# Starting and cancelling (`src/org.glite.wms.interface/src/server/coreoperations.cpp`)

`jobStart` looks up the permission to start, reads the description and hands
it to `submit`, which takes the lock of the job, logs, fills in the
description and forwards it. A description that turns out to be impossible is
answered with an event, an unlocking and an exception, and the three kinds of
exception are answered in slightly different ways.

With the asynchronous start the client has its answer before `submit` does
its work, so there is nobody left to throw an exception to.

A job that has not been started is cancelled here, by an abort and a purge;
any other one by a request to the workload manager.
-/

namespace Wms.Interface

open Wms.Lib
open Wms.Core (EnQueuedResult)

/-! ## The lock -/

/-- `operationLock`; a failure ends the request. -/
def operationLock : WmpProc ℕ := do
  let r ← ask .operationLock
  match r with
  | .ok fd => pure fd
  | .error .cannotOpen => .throw (.fileSystem "unable to open lock file")
  | .error .cannotLock =>
      .throw (.jobOperation .operationNotAllowed
        "jobStart operation already in progress")

/-- `operationUnlock`, where there is a lock. -/
def operationUnlock (fd : Option ℕ) : WmpProc Unit := do
  match fd with
  | none => pure ()
  | some fd =>
      let _ ← ask (.operationUnlock fd)
      pure ()

/-- `isOperationLocked` -/
def isOperationLocked : WmpProc Bool := do
  let r ← ask .isOperationLocked
  match r with
  | .ok locked => pure locked
  | .error .cannotOpen => .throw (.fileSystem "Unable to open lock file")
  | .error .cannotLock =>
      .throw (.fileSystem "Unable to check if the file is locked")

/-! ## Purging -/

/-- The states in which a job may be purged on demand. -/
def purgeAllowed (status : JobStatus) : Bool :=
  status.state = .aborted ||
    (status.state = .done &&
      (status.doneCode = .ok || status.doneCode = .cancelled))

/-- `jobpurge` -/
def jobpurge (checkstate : Bool) : WmpProc Unit := do
  work .eventLogger
  (work .userProxy).tryCatch fun _ => work .hostProxy
  work .loggingJob
  let r ← ask .jobStatus
  let status ← Proc.ofExcept r
  let forcePurge := status.parent.isSome
  if !checkstate || purgeAllowed status then
    let r ← ask (.doPurge forcePurge forcePurge)
    let purged ← Proc.ofExcept r
    if !purged && checkstate then
      .throw (.jobOperation .isFailure "Unable to complete job purge")
    else pure ()
  else
    .throw (.jobOperation .operationNotAllowed
      "Job current status doesn't allow purge operation")

/-- The job is aborted and purged, unless its abort could not be logged or its
start is in progress; that the start is this one is not seen, for a process
does not see its own lock. -/
def purgeUnlessLocked : WmpProc Unit := do
  if ← isOperationLocked then pure () else jobpurge false

/-- The job is aborted in the L&B and purged, unless that could not be logged. -/
def abortAndPurge (reason : String) : WmpProc Unit := do
  if ← logAbortEventSync reason then purgeUnlessLocked else pure ()

/-! ## The description -/

/-- A sandbox with too many files ends the job. -/
def tooManyFiles (reason : String) : WmpProc Unit := do
  abortAndPurge reason
  .throw (.jobOperation .operationNotAllowed reason)

/-- The number of files of the input sandbox, where there is one. -/
def checkInputSandbox (cfg : Config) : Option ℕ → WmpProc Unit
  | none => pure ()
  | some size =>
      if cfg.maxInputSandboxFiles > 0 && (size : ℤ) > cfg.maxInputSandboxFiles then
        tooManyFiles "The maximum number of input sandbox files is reached"
      else pure ()

/-- The loop over the destinations: it stops at the first one too many. -/
def checkOutputSandbox (cfg : Config) : Option ℕ → WmpProc Unit
  | none => pure ()
  | some size =>
      if cfg.maxOutputSandboxFiles > 0 && (size : ℤ) > cfg.maxOutputSandboxFiles then
        tooManyFiles "The maximum number of output sandbox files is reached"
      else pure ()

/-- What a checkpointable job is refused with. -/
def checkpointableDeprecated : WmpProc Unit :=
  .throw (.jobOperation .jdlParsing "Checkpointable Jobs are Deprecated")

/-- What each type of job needs before it is delivered. -/
def checkJobType : JobKind → WmpProc Unit
  | .normal => pure ()
  | .interactive => logListener
  | .checkpointable => checkpointableDeprecated

/-- No listener is logged for a node. -/
def checkNodeType : JobKind → WmpProc Unit
  | .checkpointable => checkpointableDeprecated
  | _ => pure ()

/-- The sequence code is put in last, and the description printed. -/
def finish (jdl : String) : WmpProc String := do
  let code ← ask .getSequence
  let r ← ask (.finish jdl code)
  Proc.ofExcept r

/-- The description of a job, filled in. -/
def prepareJob (cfg : Config) (jdl : String) : WmpProc String := do
  let r ← ask (.parseJob jdl)
  let jad ← Proc.ofExcept r
  work .destinationUri
  checkInputSandbox cfg jad.inputSandbox
  work .outputSandbox
  checkOutputSandbox cfg jad.outputDestinations
  work .perusal
  work .unzip
  checkJobType jad.jobType
  work .requirements
  finish jdl

/-- A node with no input sandbox of its own has that of the DAG. -/
def inheritedSandbox (dag : DagAd) (node : NodeAd) : Option ℕ :=
  match node.inputSandbox with
  | some _ => none
  | none => some (dag.inputSandbox.getD 0)

/-- The attributes of a node. -/
def prepareNode (cfg : Config) (dag : DagAd) (node : NodeAd) : WmpProc Unit := do
  work .nodeAttributes
  checkInputSandbox cfg (inheritedSandbox dag node)
  work .requirements
  work .outputSandbox
  checkOutputSandbox cfg node.outputDestinations
  work .perusal
  checkNodeType node.jobType

/-- The nodes of a DAG, one after another. -/
def prepareNodes (cfg : Config) (dag : DagAd) : List NodeAd → WmpProc Unit
  | [] => pure ()
  | node :: nodes => do
      prepareNode cfg dag node
      prepareNodes cfg dag nodes

/-- The second pass, over what the nodes have inherited by then. -/
def checkNodes (cfg : Config) : List NodeAd → WmpProc Unit
  | [] => pure ()
  | node :: nodes => do
      checkInputSandbox cfg node.inputSandbox
      checkNodes cfg nodes

/-- What is made ready for a DAG as a whole, around its nodes. -/
def prepareDag (cfg : Config) (jdl : String) (dag : DagAd) : WmpProc String := do
  work .nodeDirectories
  prepareNodes cfg dag dag.nodes
  work .submissionStrings
  checkNodes cfg dag.nodes
  work .vomsProxy
  work .loggingJob
  work .registerSubJobs
  work .unzip
  finish jdl

/-! ## What follows a failure -/

/-- For a job. `none` is the return from `submit`; after a `RequestAdException`
there is none, so with the asynchronous start the description goes on as it
was read. -/
def jobFailed (cfg : Config) (jdl : String) (fd : Option ℕ) :
    Exn → WmpProc (Option String)
  | .requestAd what => do
      logEvent (.enQueued .fail what)
      logEvent (.abort what)
      operationUnlock fd
      if cfg.asyncJobStart then pure (some jdl)
      else .throw (.requestAd what)
  | .jobOperation code what => do
      logEvent (.enQueued .fail what)
      operationUnlock fd
      if cfg.asyncJobStart then pure none
      else .throw (.jobOperation code what)
  | e => do
      logEvent (.enQueued .fail e.what)
      operationUnlock fd
      if cfg.asyncJobStart then pure none
      else .throw (.jobOperation .none ("Standard exception: " ++ e.what))

/-- All nodes are aborted with their DAG. -/
def abortNodes (reason : String) : List NodeAd → WmpProc Unit
  | [] => pure ()
  | node :: nodes => do
      work .loggingJob
      logNodeEvent node.jobId (.abort reason)
      abortNodes reason nodes

/-- For a DAG every handler throws, with the asynchronous start as well. -/
def dagFailed (dag : DagAd) (fd : Option ℕ) : Exn → WmpProc (Option String)
  | .requestAd what => do
      logEvent (.enQueued .fail what)
      logEvent (.abort what)
      abortNodes what dag.nodes
      operationUnlock fd
      .throw (.requestAd what)
  | .jobOperation code what => do
      logEvent (.enQueued .fail what)
      operationUnlock fd
      .throw (.jobOperation code what)
  | e => do
      logEvent (.enQueued .fail e.what)
      operationUnlock fd
      .throw (.jobOperation .none ("Standard exception: " ++ e.what))

/-! ## Forwarding -/

/-- The request goes to the job directory of the manager. -/
def fForward (command : String) : WmpProc Unit := do
  let r ← ask (.deliver command)
  match r with
  | .ok () => pure ()
  | .error what => .throw (.fileSystem what)

/-- `WMP2WM::submit`: a failure of the delivery or of the event behind it is
logged and not thrown. -/
def wmpSubmit (jdl : String) : WmpProc Unit := do
  let r ← ask (.command jdl)
  let command ← Proc.ofExcept r
  Proc.tryCatch
    (do
      fForward command
      logEvent (.enQueued .ok ""))
    fun e => logEvent (.enQueued .fail e.what)

/-- What is left when the description is ready. -/
def forward (cfg : Config) (fd : Option ℕ) (jdltostart : String) :
    WmpProc Unit := do
  match ← isAborted cfg with
  | some reason =>
      .throw (.jobOperation .operationNotAllowed
        ("the job has been aborted: " ++ reason))
  | none =>
      work .jobDir
      wmpSubmit jdltostart
      let r ← ask (.writeJdl jdltostart)
      Proc.ofExcept r
      let _ ← ask .renameJdl
      operationUnlock fd

/-- The JDL that is delivered, by the kind of job. -/
def prepare (cfg : Config) (jdl : String) (fd : Option ℕ) :
    WmpProc (Option String) := do
  let r ← ask (.getType jdl)
  match ← Proc.ofExcept r with
  | .job =>
      Proc.tryCatch (prepareJob cfg jdl >>= fun text => pure (some text))
        (jobFailed cfg jdl fd)
  | .dag =>
      let r ← ask (.parseDag jdl)
      let dag ← Proc.ofExcept r
      Proc.tryCatch (prepareDag cfg jdl dag >>= fun text => pure (some text))
        (dagFailed dag fd)

/-- `submit` behind its beginning. -/
def submitWith (cfg : Config) (jdl : String) (fd : Option ℕ) :
    WmpProc Unit := do
  logEvent .accepted
  logEvent (.enQueued .start "LOG_ENQUEUE_START")
  match ← prepare cfg jdl fd with
  | none => pure ()
  | some jdltostart => forward cfg fd jdltostart

/-- `submit` for a start; the lock is the first thing it does. -/
def submit (cfg : Config) (jdl : String) : WmpProc Unit := do
  let fd ← operationLock
  submitWith cfg jdl (some fd)

/-! ## `jobStart` -/

/-- A job whose proxy has expired is aborted and purged. -/
def abortExpired : Exn → WmpProc Unit
  | .jobOperation .proxyExpired _ => do
      let r ← ask (.setSequenceCode "EDG_WLL_SEQ_ABORT")
      Proc.ofExcept r
      logEvent (.abort "Job Proxy has expired")
      jobpurge false
  | _ => pure ()

/-- The job is aborted if it is expired, and the error goes on. -/
def authorizationFailed (e : Exn) : WmpProc Unit := do
  abortExpired e
  .throw e

/-- The logger goes on from the last sequence code. -/
def continueFrom (seqcode : String) : WmpProc Unit := do
  let r ← ask (.setSequenceCode seqcode)
  Proc.ofExcept r
  let r ← ask .incrementSequenceCode
  Proc.ofExcept r

/-- A job that may not be started ends the request here. -/
def checkStart (cfg : Config) : WmpProc Unit := do
  let (seqcode, event) ← isStartAllowed cfg
  if seqcode = "" then
    .throw (.jobOperation .operationNotAllowed
      "The job has already been started")
  else if event.parent ≠ "" then
    .throw (.jobOperation .operationNotAllowed
      ("the job is a DAG subjob. The parent is: " ++ event.parent))
  else continueFrom seqcode

/-- With the asynchronous start the client has its answer now. -/
def answerClient (cfg : Config) : WmpProc Unit :=
  if cfg.asyncJobStart then do
    if ← ask .reply then ask .sendFault else pure ()
  else pure ()

/-- The description, once the client has been answered. -/
def readJdlToStart (cfg : Config) : WmpProc String := do
  if !(← ask (.existsFile .jdlToStart)) then
    .throw (.jobOperation .jobNotFound "Unable to start job")
  else
    answerClient cfg
    let r ← ask .readJdl
    Proc.ofExcept r

/-- What `jobStart` does before it looks at the job. -/
def authorizeStart : WmpProc Unit := do
  work .initOperation
  work .eventLogger
  work .jobId
  let r ← ask .authorize
  (Proc.ofExcept r).tryCatch authorizationFailed
  if !(← ask (.existsFile .directory)) then
    .throw (.jobOperation .jobNotFound
      ("The job has not been registered from this Workload Manager Proxy " ++
        "server or it has been purged"))
  else
    let r ← ask .drained
    let drained ← Proc.ofExcept r
    if drained then
      .throw (.authorization
        "Unavailable service (the server is temporarily drained)")
    else
      work .vomsProxy
      work .userProxy
      work .loggingJob

/-- `jobStart` -/
def jobStart (cfg : Config) : WmpProc Unit := do
  authorizeStart
  checkStart cfg
  let jdl ← readJdlToStart cfg
  submit cfg jdl

/-! ## `jobCancel` -/

/-- The sequence code of the description, or of the last event. -/
def cancelSeqcode (cfg : Config) (status : JobStatus) : WmpProc String :=
  if status.parent.isSome then do
    work .readParentJdl
    getLastEventSeqCode cfg
  else do
    let r ← ask .jdlSequenceCode
    let code ← Proc.ofExcept r
    if code.getD "" = "" then getLastEventSeqCode cfg
    else pure (code.getD "")

/-- Only a job with a sequence code is started. -/
def continueUnlessEmpty (seqcode : String) : WmpProc Unit :=
  if seqcode ≠ "" then continueFrom seqcode else pure ()

/-- The job has been registered and not more. -/
def cancelSubmitted : WmpProc Unit := do
  let r ← ask (.setSequenceCode "EDG_WLL_SEQ_ABORT")
  Proc.ofExcept r
  abortAndPurge "Cancelled by user"
  work .unregisterProxyRenewal

/-- The request to the workload manager. -/
def cancelForwarded : WmpProc Unit := do
  let code ← ask .getSequence
  let r ← ask (.forwardCancel code)
  Proc.ofExcept r
  logEvent .cancel

/-- What a cancel does in each state of the job. -/
def cancelByStatus (status : JobStatus) : WmpProc Unit :=
  match status.state with
  | .submitted =>
      if status.parent.isNone then cancelSubmitted else cancelForwarded
  | .waiting => cancelForwarded
  | .ready => cancelForwarded
  | .scheduled => cancelForwarded
  | .running => cancelForwarded
  | .done =>
      if status.doneCode = .failed then cancelForwarded
      else
        .throw (.jobOperation .operationNotAllowed
          "job status (DONE) doesn't allow job cancel")
  | _ =>
      .throw (.jobOperation .operationNotAllowed
        "job status doesn't allow job cancel")

/-- `jobCancel` -/
def jobCancel (cfg : Config) : WmpProc Unit := do
  work .initOperation
  let r ← ask .authorize
  Proc.ofExcept r
  work .jobId
  work .vomsProxy
  work .eventLogger
  work .userProxy
  work .loggingJob
  let r ← ask .jobStatus
  let status ← Proc.ofExcept r
  if status.cancelling then
    .throw (.jobOperation .operationNotAllowed
      "Cancel has already been requested")
  else
    let seqcode ← cancelSeqcode cfg status
    continueUnlessEmpty seqcode
    work .jobDir
    cancelByStatus status

end Wms.Interface
