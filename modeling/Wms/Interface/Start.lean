import Wms.Interface.CoreOperations
import Wms.Lib.Lts
import Wms.Lib.RecordLock
import Mathlib.Logic.Function.Basic

/-!
# Requests about one job

Any number of WMProxy processes, each handling one request after another to
start or to cancel the same registered job. They share the LB record of the
job, its directory with the lock file and the description, and the job
directory of the workload manager, and they take turns call by call.

LB answers a query with exactly the events logged so far, in their order, or
with an error. The lock file is a file with a record lock, and a process that
asks for a lock another one has is not able to go on. What is answered to
anything else is left open. A process may end at any time; its descriptors are
closed then.
-/

namespace Wms.Interface

open Wms.Lib
open Wms.Core (Source EnQueuedResult)

/-- The two requests that may come for a job. -/
inductive Request where
  | start
  | cancel
  deriving DecidableEq, Repr

/-- What has happened to the job, in the order it happened. -/
inductive Entry where
  | event (e : Event)
  | delivery (command : String)
  | purge (request : Request)
  /-- The description has got its name for a started job. -/
  | moved

/-- All that the requests for a job share. -/
structure Env where
  history : List Entry
  lock : RecordLock
  /-- The job's directory is there. -/
  directory : Bool
  /-- The description under the name it has before the start. -/
  jdlToStart : Option String

/-- The event that an entry of the history is, if it is one. -/
def Entry.event? : Entry → Option Event
  | .event e => some e
  | _ => none

/-- The events LB holds. -/
def lbEvents (history : List Entry) : List Event :=
  history.filterMap Entry.event?

/-- Which events each query asks for. -/
def asked (q : Query) (e : Event) : Bool :=
  match q with
  | .networkServer => e.source = .networkServer
  | .aborts =>
      match e.kind with
      | .abort _ => true
      | _ => false

/-- The events that answer a query. -/
def found (history : List Entry) (q : Query) : List Event :=
  (lbEvents history).filter (asked q)

/-- What the L&B answers: no events at all is an error of its own. -/
def lbAnswer (history : List Entry) (q : Query) :
    Except QueryError (List Event) → Except QueryError (List Event)
  | .error (.temporary code) => .error (.temporary code)
  | .error (.definite code) => .error (.definite code)
  | _ =>
      if found history q = [] then .error .noEntry
      else .ok (found history q)

/-- The answer to a call of a process, from the one offered. Nothing can be
opened, read or written in a directory that is not there. -/
def answer (p : ℕ) (env : Env) : (c : Call) → Answer c → Answer c
  | .existsFile .directory, _ => env.directory
  | .existsFile .jdlToStart, _ => env.directory && env.jdlToStart.isSome
  | .readJdl, r =>
      match r, env.directory, env.jdlToStart with
      | .error e, _, _ => .error e
      | .ok _, true, some text => .ok text
      | .ok _, _, _ => .error (.std "cannot open file")
  | .queryEvents _ q, r => lbAnswer env.history q r
  | .operationLock, r =>
      match r, env.directory with
      | .error e, _ => .error e
      | .ok _, true => .ok env.lock.fresh
      | .ok _, false => .error .cannotOpen
  | .isOperationLocked, r =>
      match r, env.directory with
      | .error e, _ => .error e
      | .ok _, true => .ok (env.lock.lockedFor p)
      | .ok _, false => .error .cannotOpen
  | .writeJdl _, r =>
      match r, env.directory with
      | .error e, _ => .error e
      | .ok _, true => .ok ()
      | .ok _, false => .error (.fileSystem "Unable to write file: ")
  | .renameJdl, r => r && env.directory && env.jdlToStart.isSome
  | _, r => r

/-- What a call does, from the answer given. A lock that cannot be had leaves
the file closed; a look at the lock leaves it open unless it is free. -/
def effect (request : Request) (p : ℕ) (env : Env) :
    (c : Call) → Answer c → Env
  | .logEvent kind, .logged seqcode =>
      { env with
        history := env.history ++ [.event ⟨.networkServer, seqcode, kind⟩] }
  | .operationLock, .ok _ => { env with lock := env.lock.acquire p }
  | .operationLock, .error .cannotLock => { env with lock := env.lock.touch p }
  | .operationUnlock fd, _ => { env with lock := env.lock.close p fd }
  | .isOperationLocked, .ok true => { env with lock := env.lock.openFile p }
  | .isOperationLocked, .ok false => { env with lock := env.lock.touch p }
  | .isOperationLocked, .error .cannotLock =>
      { env with lock := env.lock.openFile p }
  | .doPurge _ _, .ok true =>
      { env with
        history := env.history ++ [.purge request]
        directory := false
        jdlToStart := none }
  | .deliver command, .ok () =>
      { env with history := env.history ++ [.delivery command] }
  | .writeJdl text, .ok () => { env with jdlToStart := some text }
  | .renameJdl, true =>
      { env with history := env.history ++ [.moved], jdlToStart := none }
  | _, _ => env

/-- A process does not go on with a lock it cannot have. -/
def enabled (p : ℕ) (env : Env) : (c : Call) → Answer c → Bool
  | .operationLock, .ok _ => !env.directory || env.lock.free p
  | .operationUnlock fd, cut =>
      cut || (p, fd) ∉ env.lock.opened || env.lock.free p
  | _, _ => true

/-- A request that is being handled. -/
structure Task where
  request : Request
  program : WmpProc Unit

/-- The environment and the requests that are being served. -/
structure State where
  env : Env
  tasks : ℕ → Option Task

/-- `component` is an event somebody else logs, `receive` a request that a
process takes up, `step` its next call, `finish` the end of its request and
`exit` the end of the process. -/
inductive Label where
  | component (e : Event)
  | receive (p : ℕ) (request : Request)
  | step (p : ℕ) (ans : (c : Call) → Answer c)
  | finish (p : ℕ)
  | exit (p : ℕ)

/-- Only WMProxy accepts and enqueues under the network server's name. -/
def isForeign (e : Event) : Bool :=
  match e.kind with
  | .accepted => e.source ≠ .networkServer
  | .enQueued _ _ => e.source ≠ .networkServer
  | _ => true

variable (cfg : Config)

/-- What serves each request. -/
def handler : Request → WmpProc Unit
  | .start => jobStart cfg
  | .cancel => jobCancel cfg

/-- The next call of a process, answered. -/
def stepTask (p : ℕ) (env : Env) (t : Task) (ans : (c : Call) → Answer c) :
    Option (Env × Task) :=
  match t.program with
  | .call c k =>
      if enabled p env c (ans c) then
        let r := answer p env c (ans c)
        some (effect t.request p env c r, ⟨t.request, k r⟩)
      else none
  | _ => none

/-- Whether a request has been served. -/
def isOver (t : Task) : Bool :=
  match t.program with
  | .call _ _ => false
  | _ => true

/-- A request begins, does its next call, or another component logs. -/
def next (s : State) : Label → Option State
  | .component e =>
      if isForeign e then
        some { s with
          env := { s.env with history := s.env.history ++ [.event e] } }
      else none
  | .receive p request =>
      match s.tasks p with
      | some _ => none
      | none =>
          some { s with
            tasks := Function.update s.tasks p
              (some ⟨request, handler cfg request⟩) }
  | .step p ans =>
      match s.tasks p with
      | none => none
      | some t =>
          (stepTask p s.env t ans).map fun r =>
            ⟨r.1, Function.update s.tasks p (some r.2)⟩
  | .finish p =>
      match s.tasks p with
      | none => none
      | some t =>
          if isOver t then
            some { s with tasks := Function.update s.tasks p none }
          else none
  | .exit p =>
      some
        { env := { s.env with lock := s.env.lock.exit p }
          tasks := Function.update s.tasks p none }

/-- A registered job, with the events logged until then. -/
def registered (events : List Event) (jdl : String) : Env where
  history := events.map .event
  lock := .init
  directory := true
  jdlToStart := some jdl

/-- A job that is registered, and nobody at work on it. -/
def init (events : List Event) (jdl : String) : State where
  env := registered events jdl
  tasks := fun _ => none

/-! ## What a run must not do -/

/-- The failure that WMProxy itself has logged. -/
def isEnqueuedFail (e : Event) : Bool :=
  match e.kind with
  | .enQueued .fail _ => e.source = .networkServer
  | _ => false

/-- Between two deliveries an enqueuing has failed. -/
def StartedOnce (history : List Entry) : Prop :=
  ∀ earlier between later x y,
    history = earlier ++ .delivery x :: between ++ .delivery y :: later →
      ∃ e, .event e ∈ between ∧ isEnqueuedFail e = true

/-- Whether a delivery stands, from whether one did. -/
def stand (before : Bool) : Entry → Bool
  | .delivery _ => true
  | .event e => before && !isEnqueuedFail e
  | _ => before

/-- A request was delivered and no enqueuing has failed since. -/
def standing (history : List Entry) : Bool := history.foldl stand false

/-- Whether an entry of the history is a delivery. -/
def isDelivery : Entry → Bool
  | .delivery _ => true
  | _ => false

/-- A cancel has purged the job. -/
def cancelPurged (history : List Entry) : Bool :=
  history.any fun
    | .purge .cancel => true
    | _ => false

/-! ## Steps that go well -/

/-- The request a process handles and the call it makes next. -/
def calling (s : State) (p : ℕ) : Option (Request × Call) :=
  match s.tasks p with
  | some ⟨request, .call c _⟩ => some (request, c)
  | _ => none

/-- A process that gets the lock finds no delivery standing. -/
def grantedFresh (s : State) : Label → Bool
  | .step p ans =>
      match calling s p with
      | some (_, .operationLock) =>
          match answer p s.env .operationLock (ans .operationLock) with
          | .ok _ => !standing s.env.history
          | .error _ => true
      | _ => true
  | _ => true

/-- A process that looks for an abort has the lock, or there is one. -/
def looksLocked (s : State) : Label → Bool
  | .step p _ =>
      match calling s p with
      | some (_, .queryEvents _ .aborts) =>
          s.env.lock.holder = some p || !(found s.env.history .aborts).isEmpty
      | _ => true
  | _ => true

/-- A cancel that finds the lock free comes before any delivery. -/
def cancelsFirst (s : State) : Label → Bool
  | .step p ans =>
      match calling s p with
      | some (.cancel, .isOperationLocked) =>
          match answer p s.env .isOperationLocked (ans .isOperationLocked) with
          | .ok false => !s.env.history.any isDelivery
          | _ => true
      | _ => true
  | _ => true

/-- The condition for one start. -/
def startsFresh (s : State) (l : Label) : Prop :=
  grantedFresh s l = true ∧ looksLocked s l = true

/-- The condition for a purge that nothing is delivered with. -/
def purgesUnstarted (s : State) (l : Label) : Prop :=
  cancelsFirst s l = true ∧ looksLocked s l = true

end Wms.Interface
