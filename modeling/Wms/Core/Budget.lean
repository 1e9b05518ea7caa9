import Wms.Core.Replanner
import Wms.Core.SubmitRequest
import Wms.Lib.Lts

/-!
# The retries of one job

The requests of a job and its replannings, one at a time, as seen from its LB
log. The LB answers every query with exactly the events logged so far, or with
an error. What the job's directory looks like, what the planner says and all
the rest is left to whoever answers, anew at every call.

A job is registered with its description, possibly more than once but always
with the same. Other components log what they like; only the manager logs
resubmissions.
-/

namespace Wms.Core.Budget

open Wms.Lib Wms.Core

/-- Queries are answered from the log, and all other calls at will. -/
def answer (lb : List LbEvent) : (c : Call) → Answer c → Answer c
  | .query q, r => lbAnswer lb q r
  | _, r => r

/-- What is logged joins the log. -/
def effect (lb : List LbEvent) : Call → List LbEvent
  | .log e => lb ++ [logged e]
  | _ => lb

/-- The L&B of a job as the world of its requests. -/
def lbWorld : Proc.World (List LbEvent) Call Answer := fun lb c r =>
  (answer lb c r, effect lb c)

/-- `registered` is the event that carries the description, `process` the
handling of a request, whichever it is, and `replan` a look of the
replanner. -/
inductive Label where
  | registered (timestamp : ℤ) (queue reason : String)
  | component (e : LbEvent)
  | process (o : Proc.Oracle Call Answer)
  | replan (o : Proc.Oracle Call Answer)

/-- An event that neither the manager nor the registration logs. -/
def isForeign (e : LbEvent) : Bool :=
  match e.source, e.kind with
  | .workloadManager, _ => false
  | .bigHelper, .resubmission _ _ _ => false
  | .networkServer, .enQueued .ok _ (.ad _) _ => false
  | _, _ => true

variable (cfg : Config) (jdl : Jdl)

/-- The log that a complete run leaves. -/
def logAfter (o : Proc.Oracle Call Answer) (lb : List LbEvent)
    (p : WmProc Unit) : List LbEvent :=
  (Proc.exec lbWorld o 0 lb p).state

/-- The job is registered, logged about by another component, or a request is
processed. -/
def next (lb : List LbEvent) : Label → Option (List LbEvent)
  | .registered timestamp queue reason =>
      some (lb ++
        [⟨.networkServer, timestamp, .enQueued .ok queue (.ad jdl) reason⟩])
  | .component e => if isForeign e then some (lb ++ [e]) else none
  | .process o =>
      some (logAfter o lb (submitProcessor cfg fun _ => pure ()))
  | .replan o => some (logAfter o lb (replan cfg))

/-! ## What the log says -/

/-- A deep resubmission that the manager logged. -/
def isWmDeep (e : LbEvent) : Bool :=
  e.source = .workloadManager && isDeepResubmission e

/-- A shallow resubmission that the manager logged. -/
def isWmShallow (e : LbEvent) : Bool :=
  e.source = .workloadManager && isShallowResubmission e

/-- The deep resubmissions the manager has logged. -/
def deepLogged (lb : List LbEvent) : ℕ := lb.countP isWmDeep

/-- The shallow ones since the last deep one. -/
def shallowSinceDeep (lb : List LbEvent) : ℕ :=
  lb.foldl
    (fun n e => if isWmDeep e then 0 else if isWmShallow e then n + 1 else n) 0

/-- What `RetryCount` and the configuration allow. -/
def deepLimit : ℤ := max 0 (min (jdl.retryCount.getD 0) cfg.maxRetryCount)

/-- What `ShallowRetryCount` and the configuration allow. -/
def shallowLimit : ℤ :=
  max 0 (min (jdl.shallowRetryCount.getD 0) cfg.maxShallowRetryCount)

/-- Both counts are within their limits. -/
def withinBudget (lb : List LbEvent) : Prop :=
  (deepLogged lb : ℤ) ≤ deepLimit cfg jdl ∧
    (shallowSinceDeep lb : ℤ) ≤ shallowLimit cfg jdl

/-- A look of the replanner that gets as far as logging a resubmission. -/
def replans (o : Proc.Oracle Call Answer) (lb : List LbEvent) : Bool :=
  match (Proc.exec lbWorld o 0 lb (replanPrepared cfg)).result with
  | .ok (some _) => true
  | _ => false

/-- The replanner leaves the shallow count alone once it is at its limit. -/
def roomForReplan (lb : List LbEvent) : Label → Bool
  | .replan o =>
      !replans cfg o lb || (shallowSinceDeep lb : ℤ) < shallowLimit cfg jdl
  | _ => true

end Wms.Core.Budget
