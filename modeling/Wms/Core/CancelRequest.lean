import Wms.Core.LbUtils

/-!
# The cancel of a request (`src/org.glite.wms.core/src/cancel_request.cpp`)

One run of `CancelProcessor`. A child is named by its place among the children
of the status, and `none` stands for the job of the request. The calls that
switch the logging context say for which child they are made, since they change
where the next event goes.
-/

namespace Wms.Core.Cancel

open Wms.Lib

/-- The types of job that the L&B tells apart. -/
inductive StatType where
  | job
  | collection
  | dag
  deriving DecidableEq, Repr

/-- What the L&B says of a job: its type and its state. -/
structure Stat where
  jobtype : StatType
  state : JobState
  deriving DecidableEq, Repr

/-- The status with `children | child_status`. A missing array has no children,
and a state that is `EDG_WLL_JOB_UNDEF`, or not there, is `none`. -/
structure ChildrenStat where
  childrenNum : ℕ
  childrenStates : List (Option JobState)
  deriving DecidableEq, Repr

/-- The state of a child, if the L&B knows it. -/
def ChildrenStat.state (s : ChildrenStat) (i : ℕ) : Option JobState :=
  s.childrenStates[i]?.join

/-- What the purger logs. -/
inductive PurgeLog where
  | cancelDone
  | abort
  deriving DecidableEq, Repr

/-- What the processor asks of the L&B, of the WM and of the file system. -/
inductive Call where
  | jobStatus
  | childrenStatus
  | createToken (child : ℕ)
  | existsToken
  | cancelEvents (job : Option ℕ)
  | changeLoggingJob (child : ℕ)
  | changeLoggingJobBack (child : ℕ)
  | logCancelled (job : Option ℕ)
  | logDoneCancelled
  | cancel (job : Option ℕ)
  | unregisterProxy
  | purge (log : PurgeLog)
  | scheduleAgain
  deriving DecidableEq, Repr

/-- What is logged may be refused, which the code does not look at, and it may
throw. -/
@[reducible] def Answer : Call → Type
  | .jobStatus => Except Exn (Option Stat)
  | .childrenStatus => Except Exn (Option ChildrenStat)
  | .createToken _ => Bool
  | .existsToken => Bool
  | .cancelEvents _ => Except Errno (List LbEvent)
  | .changeLoggingJob _ => Except Exn Unit
  | .changeLoggingJobBack _ => Except Exn Unit
  | .logCancelled _ => Except Exn Unit
  | .logDoneCancelled => Except Exn Unit
  | .cancel _ => Except Exn Unit
  | .unregisterProxy => Unit
  | .purge _ => Unit
  | .scheduleAgain => Unit

/-- A program of the cancel processor. -/
abbrev CancelProc (α : Type) := Proc Call Answer Exn α

/-- One call. -/
def ask (c : Call) : CancelProc (Answer c) := Proc.perform c

/-- `is_cancelled_event` -/
def isCancelledEvent (event : LbEvent) : Bool :=
  match event.kind with
  | .cancel => true
  | _ => false

/-- The conditions of `get_cancel_events`. -/
def selects (event : LbEvent) : Bool :=
  (isEnQueued event.kind || isCancelledEvent event) &&
    event.source = .workloadManager

/-- `get_cancel_events`, of the job itself or of a child. -/
def getCancelEvents (job : Option ℕ) : CancelProc (List LbEvent) := do
  let answer ← ask (.cancelEvents job)
  Proc.ofExcept (queryResult false answer)

/-- `is_last_cancelled_by_wm`: the last Cancel event comes from the manager. -/
def isLastCancelledByWm (events : List LbEvent) : Bool :=
  match findLast isCancelledEvent events with
  | some event => event.source = .workloadManager
  | none => false

/-- A call that may throw. -/
def orThrow (c : Call) (h : Answer c = Except Exn Unit) : CancelProc Unit := do
  let answer ← ask c
  Proc.ofExcept (h ▸ answer)

/-- The cancel of a child is logged and passed on, whatever comes of it. -/
def forward (i : ℕ) : CancelProc Unit :=
  Proc.tryCatch
    (do orThrow (.changeLoggingJob i) rfl
        orThrow (.logCancelled (some i)) rfl
        orThrow (.changeLoggingJobBack i) rfl
        orThrow (.cancel (some i)) rfl)
    fun _ => pure ()

/-- Whether the child is still under processing by the WM. -/
def childStage (jobtype : StatType) (i : ℕ) (state : JobState) :
    CancelProc Bool := do
  let events ← getCancelEvents (some i)
  if isLastCancelledByWm events then pure false
  else if state = .done && isLastDone events .ok then pure false
  else if !(state = .done && isLastDone events .failed) &&
      isLastEnQueuedByWm events .ok then do
    if state ≠ .aborted then forward i
    pure false
  else if jobtype = .dag then do
    if state ≠ .aborted then forward i
    pure false
  else pure true

/-- The loop over the children. It is left at the first one that has no
state. -/
def childrenLoop (jobtype : StatType) (states : ℕ → Option JobState) :
    List ℕ → Bool → CancelProc Bool
  | [], incompleteProcessing => pure incompleteProcessing
  | i :: rest, incompleteProcessing => do
      let _ ← ask (.createToken i)
      match states i with
      | none => pure incompleteProcessing
      | some state => do
          let left ← childStage jobtype i state
          childrenLoop jobtype states rest (left || incompleteProcessing)

/-- The end for a collection: it is done, or is seen again later. -/
def finish (incompleteProcessing : Bool) : CancelProc Unit :=
  if incompleteProcessing then ask .scheduleAgain
  else do
    orThrow (.logCancelled none) rfl
    orThrow .logDoneCancelled rfl
    ask (.purge .cancelDone)

/-- A DAG or a collection: each child that is not over is cancelled. -/
def collectionCancel (jobtype : StatType) : CancelProc Unit := do
  match ← Proc.bind (ask .childrenStatus) Proc.ofExcept with
  | none => pure ()
  | some s => do
      let incompleteProcessing ← childrenLoop jobtype s.state
        (List.range s.childrenNum) false
      finish incompleteProcessing

/-- The proxy is unregistered and the job purged. -/
def giveUp : CancelProc Unit := do
  ask .unregisterProxy
  ask (.purge .abort)

/-- Whether the L&B says that the job is in a state. -/
def isInState (state : JobState) (status : Option Stat) : Bool :=
  match status with
  | some s => s.state = state
  | none => false

/-- A single job: one without a token is left to the one that took it. -/
def singleCancel (status : Option Stat) : CancelProc Unit := do
  if !(← ask .existsToken) then pure ()
  else do
    let events ← getCancelEvents none
    if isInState .done status && isLastDone events .ok then pure ()
    else if !(isInState .done status && isLastDone events .failed) &&
        isLastEnQueuedByWm events .ok then
      if !isInState .aborted status then
        Proc.tryCatch
          (do orThrow (.logCancelled none) rfl
              orThrow (.cancel none) rfl)
          fun _ => giveUp
      else pure ()
    else giveUp

/-- `CancelProcessor::operator()`. -/
def cancelProcessor : CancelProc Unit := do
  match ← ask .jobStatus with
  | .error (.cannotCreateLBContext _) => pure ()
  | .error e => .throw e
  | .ok status =>
      match status with
      | some ⟨.collection, _⟩ => collectionCancel .collection
      | some ⟨.dag, _⟩ => collectionCancel .dag
      | _ => singleCancel status

/-! ## What a run has cancelled -/

variable (ans : (c : Call) → Answer c)

/-- The job that is logged for after some calls. -/
def contextAfter (context : Option ℕ) : List Call → Option ℕ
  | [] => context
  | .changeLoggingJob i :: cs =>
      contextAfter (if (ans (.changeLoggingJob i)).isOk then some i else context) cs
  | .changeLoggingJobBack i :: cs =>
      contextAfter (if (ans (.changeLoggingJobBack i)).isOk then none else context)
        cs
  | _ :: cs => contextAfter context cs

/-- The jobs that a cancel was logged for, or passed on. -/
def cancelled (context : Option ℕ) : List Call → List (Option ℕ)
  | [] => []
  | c :: cs =>
      let rest := cancelled (contextAfter ans context [c]) cs
      match c with
      | .logCancelled _ => context :: rest
      | .cancel job => job :: rest
      | _ => rest

end Wms.Core.Cancel
