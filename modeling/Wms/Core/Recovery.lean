import Wms.Core.SubmissionUtils

/-!
# Recovery (`src/org.glite.wms.core/src/recovery.cpp`)

What `request_recovery` does at a restart with a request found in the input:
whether it is scheduled again, and from which checkpoint. The branches for a
collection and for a cancellation are not followed here; `other` stands for
them.
-/

namespace Wms.Core

open Wms.Lib

/-- Whether the request has to go through limbo, asked of the LB. A query
that fails, for good or for now, counts as yes. -/
def limboOrFailed (events : WmProc (List LbEvent))
    (decide_ : List LbEvent → WmProc (Option Bool)) : WmProc (Option Bool) :=
  Proc.tryCatch (do decide_ (← events))
    (fun e =>
      match e with
      | .lbQueryFailed => pure (some true)
      | .lbQueryTemporarilyFailed => pure (some true)
      | e => .throw e)

/-- For a submission: `none` when a resubmission is on the way. -/
def recoverSubmit (status : Option JobStat) : WmProc (Option Bool) :=
  limboOrFailed getRecoveryEvents fun events =>
    if isLastDone events .failed then pure none
    else if isInState .waiting status then pure (some false)
    else pure (some (inLimbo status events))

/-- What is done about a resubmission, or nothing. -/
def recoverResubmit (status : Option JobStat) : WmProc (Option Bool) :=
  if isInState .waiting status then pure (some false)
  else limboOrFailed getRecoveryEvents fun events =>
    pure (some (inLimbo status events))

/-- The new `SubmitState` and its processor, in the queue. -/
def scheduleFrom (limbo : Bool) : WmProc Unit :=
  ask (.schedule (if limbo then .limbo else .start))

/-- The request is scheduled where it is one. -/
def scheduleRecovered (limbo : Option Bool) : WmProc Unit :=
  match limbo with
  | some limbo => scheduleFrom limbo
  | none => pure ()

/-- `request_recovery`, for a request with this command. -/
def requestRecovery (command : Command) (other : WmProc Unit) :
    WmProc Unit :=
  match command with
  | .match_ => ask .removeFromInput
  | command => do
      match ← ask .createContext with
      | .error _ => pure ()
      | .ok () =>
          let status ← ask .jobStatusIn
          match command with
          | .jobsubmit =>
              if (status.map (·.isCollection)).getD false then other
              else scheduleRecovered (← recoverSubmit status)
          | .jobresubmit => scheduleRecovered (← recoverResubmit status)
          | .jobcancel => other
          | _ => ask .removeFromInput

end Wms.Core
