import Wms.Core.Recovery
import Wms.Core.SubmitRequest
import Wms.Lib.Lts

/-!
# One request across restarts

The life of one request file of a single job. The manager takes it up when
it is running, or at its start, through `recovery`, before there is any
worker. From then on there is one `SubmitState` for it, shared by the
processors in the queue and by those the workers run, and the file is removed
when the last of them is gone. The manager may stop between any two calls of
any of them: everything but the file, the LB and what has been delivered is
lost.

The LB answers a query with exactly the events logged so far, or with an
error. Its status, and all that other components answer, is left open.
-/

namespace Wms.Core.Restart

open Wms.Lib Wms.Core

/-- A program some thread is running; `ended` remembers whether it has
delivered the job or put a processor in the queue. -/
structure Task where
  program : WmProc Unit
  ended : Bool := false

/-- What the calls of a task act upon. -/
structure Env where
  /-- The request as a fresh `SubmitState` would hold it. -/
  request : SubmitState
  memory : Option SubmitState
  lb : List LbEvent
  queued : ℕ
  delivered : ℕ
  file : Bool

/-- The job, the manager and what the manager is doing. -/
structure State where
  env : Env
  up : Bool
  /-- The file has not been read yet. -/
  unread : Bool
  recovering : Option Task
  tasks : List Task

/-- The answer given to a call, from the one offered. -/
def answer (env : Env) : (c : Call) → Answer c → Answer c
  | .load, r => env.memory.getD r
  | .query q, r => lbAnswer env.lb q r
  | _, r => r

/-- What a call does. -/
def effect (env : Env) : (c : Call) → Answer c → Env
  | .storeAd ad, _ =>
      { env with memory := env.memory.map fun m => { m with ad := ad } }
  | .storeCheckpoint c, _ =>
      { env with
        memory := env.memory.map fun m => { m with lastCheckpointing := c } }
  | .log e, _ => { env with lb := env.lb ++ [logged e] }
  | .scheduleAt _, _ => { env with queued := env.queued + 1 }
  | .schedule c, _ =>
      { env with
        memory := some { env.request with lastCheckpointing := c }
        queued := env.queued + 1 }
  | .deliver _ _, .ok () => { env with delivered := env.delivered + 1 }
  | .removeFromInput, _ => { env with file := false }
  | _, _ => env

/-- A call that delivers the job or puts a processor in the queue. -/
def ends : (c : Call) → Answer c → Bool
  | .scheduleAt _, _ => true
  | .schedule _, _ => true
  | .deliver _ _, .ok () => true
  | _, _ => false

/-- The next call of a task, answered. -/
def stepTask (env : Env) (t : Task) (ans : (c : Call) → Answer c) :
    Option (Env × Task) :=
  match t.program with
  | .call c k =>
      let r := answer env c (ans c)
      some (effect env c r, ⟨k r, t.ended || ends c r⟩)
  | _ => none

/-- Whether a request has been processed. -/
def isOver (t : Task) : Bool :=
  match t.program with
  | .call _ _ => false
  | _ => true

/-- `component` is an event of another component, `dispatch` the reading of a
new request, `start` a worker that takes a processor from the queue, `step` a
call of a worker's processor and `finish` its end, `cleanup` the removal of
the file once nothing refers to the `SubmitState`. -/
inductive Label where
  | component (e : LbEvent)
  | dispatch
  | start
  | step (i : ℕ) (ans : (c : Call) → Answer c)
  | finish (i : ℕ)
  | cleanup
  | crash
  | restart
  | recover (ans : (c : Call) → Answer c)
  | recovered

variable (cfg : Config)

/-- The job is single, so nothing is done for it as for another type. -/
def processor : WmProc Unit := submitProcessor cfg fun _ => pure ()

/-- The request has been written. The events of a first submission may be there. -/
def init (request : SubmitState) (lb : List LbEvent) : State where
  env :=
    { request := request
      memory := none
      lb := lb
      queued := 0
      delivered := 0
      file := true }
  up := true
  unread := true
  recovering := none
  tasks := []

/-- Whether requests are read. -/
def working (s : State) : Bool := s.up && s.recovering.isNone

/-- A step of the manager, a stop, a restart, or another component logs. -/
def next (s : State) : Label → Option State
  | .component e =>
      if e.source = .workloadManager then none
      else some { s with env := { s.env with lb := s.env.lb ++ [e] } }
  | .dispatch =>
      if working s && s.unread then
        some { s with
          unread := false
          env := effect s.env (.schedule .start) () }
      else none
  | .start =>
      if working s && s.env.queued ≠ 0 then
        some { s with
          env := { s.env with queued := s.env.queued - 1 }
          tasks := s.tasks ++ [⟨processor cfg, false⟩] }
      else none
  | .step i ans =>
      match s.tasks[i]? with
      | none => none
      | some t =>
          (stepTask s.env t ans).map fun r =>
            { s with env := r.1, tasks := s.tasks.set i r.2 }
  | .finish i =>
      match s.tasks[i]? with
      | none => none
      | some t =>
          if isOver t then some { s with tasks := s.tasks.eraseIdx i }
          else none
  | .cleanup =>
      if working s && s.tasks.isEmpty && s.env.queued = 0 &&
          s.env.memory.isSome then
        some { s with env := { s.env with memory := none, file := false } }
      else none
  | .crash =>
      some { s with
        env := { s.env with memory := none, queued := 0 }
        up := false
        recovering := none
        tasks := [] }
  | .restart =>
      if s.up then none
      else
        some { s with
          up := true
          unread := false
          recovering :=
            if s.env.file then
              some ⟨requestRecovery s.env.request.command (pure ()), false⟩
            else none }
  | .recover ans =>
      match s.recovering with
      | none => none
      | some t =>
          (stepTask s.env t ans).map fun r =>
            { s with env := r.1, recovering := some r.2 }
  | .recovered =>
      match s.recovering with
      | none => none
      | some t => if isOver t then some { s with recovering := none } else none

end Wms.Core.Restart
