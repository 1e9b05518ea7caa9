import Wms.Interface.Retry
import Wms.Proofs.Start

/-!
# What a failed start leaves

The first start is followed by its weakest precondition over the environment
itself. Until the lock nothing has changed but for a job whose proxy has
expired, and no failure has been logged. With the lock and until the
description is renamed, the directory and the description are there unless an
abort has been logged. The renaming comes last, after a look for an abort that
found none, so what is before it decides everything.

The later start is followed under the assumption that every call succeeds. It
ends in no exception then, and so it delivers exactly once.
-/

namespace Wms.Interface

open Wms.Lib Wms.Lib.Proc
open Wms.Core (Source EnQueuedResult)

/-! ## Histories -/

/-- The events WMProxy logs while it starts a job. -/
def EventKind.own : EventKind → Bool
  | .accepted => true
  | .enQueued _ _ => true
  | .abort _ => true
  | .listener => true
  | _ => false

/-- The network server has logged what it had at the registration, and then
what a start logs. -/
def Logs (events : List Event) (history : List Entry) : Prop :=
  ∃ logged, found history .networkServer =
      found (events.map .event) .networkServer ++ logged ∧
    ∀ e ∈ logged, e.kind.own = true ∧ e.seqcode ≠ ""

/-- A process that starts a job alone, and the outcomes it may count on. -/
def alone (A : (c : Call) → Answer c → Prop) (p : ℕ) :
    Contract Env Call Answer where
  world := world .start p
  assume := fun env c r => A c (given p env c r)
  guard := fun _ _ _ => True

/-- The registration is of a job of its own, no node of a DAG. -/
def Standalone (events : List Event) : Prop :=
  ∃ event, scanStart {} false (found (events.map .event) .networkServer) =
    .ok (event, false) ∧ event.parent = ""

/-- Before the lock, in a start that goes well. -/
structure Opening (events : List Event) (env : Env) : Prop where
  history : env.history = events.map .event
  directory : env.directory = true
  jdl : env.jdlToStart.isSome = true

/-- Before the lock, in one that does not. -/
structure Unfailed (env : Env) : Prop where
  failed : ∀ e ∈ lbEvents env.history, isEnqueuedFail e = false
  moved : .moved ∉ env.history

/-- With the lock, until the description is renamed. -/
structure Running (events : List Event) (env : Env) : Prop where
  logs : Logs events env.history
  moved : .moved ∉ env.history
  files : found env.history .aborts = [] →
    env.directory = true ∧ env.jdlToStart.isSome = true

/-- And when no abort has been logged. -/
structure Sending (events : List Event) (env : Env) : Prop where
  running : Running events env
  unaborted : found env.history .aborts = []

/-- The description has been renamed, as the last thing. -/
structure Renamed (env : Env) : Prop where
  last : ∃ earlier, env.history = earlier ++ [.moved] ∧ .moved ∉ earlier
  unaborted : found env.history .aborts = []
  directory : env.directory = true
  jdl : env.jdlToStart = none

/-- What a start leaves. -/
inductive Left (events : List Event) (env : Env) : Prop where
  | unfailed (h : Unfailed env)
  | running (hs : Standalone events) (h : Running events env)
  | renamed (h : Renamed env)

/-! ### What the calls keep -/

section
variable {events : List Event} {p : ℕ} {env : Env}

end

/-! ### Stage by stage -/

section
variable {α : Type} {events : List Event} {p : ℕ}

def Told (history : List Entry) (q : Query)
    (r : Except QueryError (List Event)) : Prop :=
  (∀ events, r = .ok events → events = found history q) ∧
    (r = .error .noEntry → found history q = [])

variable {A : (c : Call) → Answer c → Prop}

/-- What a purge behind an abort is made of. -/
def Call.purges : Call → Bool
  | .work _ => true
  | .jobStatus => true
  | .isOperationLocked => true
  | .doPurge _ _ => true
  | _ => false

section
variable {P : Call → Prop} (hlog : ∀ kind, kind.own = true → P (.logEvent kind))
  (hunlock : ∀ fd, P (.operationUnlock fd))

include hlog hunlock

end

/-- What is left once the description has been written. -/
def Sent (events : List Event) (env : Env) : Prop :=
  Sending events env ∨ Renamed env

end

/-- The events allow another start, of a job that is no node of a DAG. -/
def Allowed (history : List Entry) : Prop :=
  ∃ seqcode event,
    startAllowed (found history .networkServer) = .ok (seqcode, event) ∧
      seqcode ≠ "" ∧ event.parent = ""

/-- What a start logs before its job is heard or aborted. -/
def EventKind.plain : EventKind → Bool
  | .accepted => true
  | .enQueued _ _ => true
  | _ => false

end Wms.Interface
