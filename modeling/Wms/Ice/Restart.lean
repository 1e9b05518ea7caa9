import Wms.Ice.Submit
import Wms.Lib.Lts

/-!
# A submit request across stops of ICE

The life of one submit request. ICE reads it, runs the command to its end and
starts again with it, from the beginning, as long as it has not been removed. The
process may stop between any two calls of the command, by itself or not. What
outlives it is the database, the request and what CREAM has done.

The proxy file is read each time the request is, so the end of the proxy may
differ from one time to the next. The rest of the job does not.

CREAM refuses to start a job that is no longer registered.
-/

namespace Wms.Ice.Restart

open Wms.Lib Wms.Ice

/-- What outlives ICE: its data base, the request and what CREAM has started. -/
structure Env where
  db : Db
  /-- The CREAM jobs of the request that have been started. -/
  started : List Text := []
  /-- The request is in the input queue. -/
  request : Bool := true
  /-- How often `resubmit_job` was called with a job started. -/
  resubmitted : ℕ := 0

/-- How CREAM refuses to start a job again. -/
def notRegistered : ResultWrapper :=
  { notMatchingStatus := ["the job is not in the REGISTERED status".toList] }

/-- CREAM carries out a start it can carry out unless it says otherwise. -/
def isCarriedOut (env : Env) (jobId : Text) (r : StartAnswer) : Bool :=
  !env.started.contains jobId &&
    match r with
    | .result res => res.refused.isEmpty
    | .raised _ carriedOut => carriedOut

/-- CREAM starts a job once. -/
def answerStart (env : Env) (jobId : Text) (r : StartAnswer) : StartAnswer :=
  match r with
  | .result res =>
      if env.started.contains jobId then .result notRegistered
      else .result res
  | r => r

/-- The data base and CREAM as they answer the calls. -/
def world (env : Env) : (c : Call) → Answer c → Answer c × Env
  | .db op, _ => ((env.db.run op).1, { env with db := (env.db.run op).2 })
  | .creamStart _ _ jobId, r =>
      (answerStart env jobId r,
        if isCarriedOut env jobId r then
          { env with started := jobId :: env.started }
        else env)
  | .noResubmit, r =>
      (r, if env.started.isEmpty then env
        else { env with resubmitted := env.resubmitted + 1 })
  | .removeRequest, r => (r, { env with request := env.request && !r })
  | _, r => (r, env)

/-- What outlives ICE, and what ICE is doing. -/
structure State where
  env : Env
  up : Bool := true
  running : Option (IceProc Unit) := none

/-- A data base, and nothing under way. -/
def init (db : Db) : State := { env := { db := db } }

/-- `dispatch` is the reading of the request, with the end of the proxy as it
is then, `step` the next call of the command and `finish` its end. A command
that does not come to an end can only be stopped. -/
inductive Label where
  | dispatch (proxyTimeEnd : ℤ) (laps : ℕ)
  | step (ans : (c : Call) → Answer c)
  | finish
  | crash
  | restart

variable (lib : Libraries) (cfg : Config) (job : CreamJob)

/-- One step of ICE, a stop or a restart. -/
def next (s : State) : Label → Option State
  | .dispatch proxyTimeEnd laps =>
      if s.up && s.env.request && s.running.isNone then
        some { s with
          running :=
            some (execute lib cfg laps (job.setIsbproxyTimeEnd proxyTimeEnd)) }
      else none
  | .step ans =>
      match s.running with
      | some (.call c k) =>
          let r := world s.env c (ans c)
          some { s with env := r.2, running := some (k r.1) }
      | _ => none
  | .finish =>
      match s.running with
      | some (.ret ()) => some { s with running := none }
      | some (.throw .abort) => some { s with up := false, running := none }
      | some (.throw .unfinished) => none
      | some (.throw _) => some { s with running := none }
      | _ => none
  | .crash =>
      if s.up then some { s with up := false, running := none } else none
  | .restart => if s.up then none else some { s with up := true }

end Wms.Ice.Restart
