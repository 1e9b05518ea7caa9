import Mathlib.Data.Finset.Sort
import Mathlib.Data.List.Lex
import Wms.Ice.CreamJob
import Wms.Lib.Lts

/-!
# The main loop of ICE (`src/org.glite.wms.ice/src/ice/IceCore.cpp`)

`IceCore::main_loop` takes requests out of a job directory and puts commands for
them into the queue of a thread pool. A request is a file. It is moved from `new`
to `old` when it is fetched and removed from `old` when its command has ended,
and every two minutes all that is in `old` is moved back. A removal can fail, which
is logged only, and the file stays where it is. `glite-wms-ice-safe`
starts the process again, at first with such a move.

The workers run at any time, and so does who delivers requests. The order in
which the pool takes commands is not followed here, any one may be next.
-/

namespace Wms.Ice.MainLoop

open Wms.Lib

/-- The requests that ICE knows. -/
inductive CommandType where
  | submit
  | cancel
  | reschedule
  deriving DecidableEq

/-- A command, with the name of its request. -/
structure Command where
  type : CommandType
  request : Text
  deriving DecidableEq

/-- Where the loop is. -/
inductive Loop where
  | check
  | fetching (entries requests : List Text)
  | handling (requests : List Text)
  | sleeping
  | sweeping
  | stopped
  deriving DecidableEq

/-- The last fields say what has happened to requests: they have come, have been
fetched, moved back and removed, could not be removed, were refused or put off, and
their commands have ended, without a removal of the request or with one, or were
there when the process stopped. -/
structure State where
  new : Finset Text
  old : Finset Text
  loop : Loop
  countOld : ℕ
  requestsQueue : List Command
  running : List Command
  arrived : List Text
  fetched : List Text
  requeued : List Text
  removed : List Text
  unremoved : List Text
  refused : List Text
  putOff : List Text
  dropped : List Text
  finished : List Text
  lost : List Text

/-- No requests, and the loop about to look for some. -/
def init : State where
  new := ∅
  old := ∅
  loop := .check
  countOld := 0
  requestsQueue := []
  running := []
  arrived := []
  fetched := []
  requeued := []
  removed := []
  unremoved := []
  refused := []
  putOff := []
  dropped := []
  finished := []
  lost := []

/-- The settings that the loop reads. -/
structure Config where
  maxIceThreads : ℕ

/-- `m_reqnum` -/
def Config.reqnum (cfg : Config) : ℕ := max cfg.maxIceThreads 5

/-- What the loop is told about a request: its command, unless there is an
exception, whether the proxy of the job is valid, whether the computing element is
on the black list, and whether a file can be removed. -/
structure Verdict where
  command : Option CommandType
  proxyValid : Bool
  blacklisted : Bool
  removes : Bool

/-- A delivery, a step of the loop or a step of a thread. -/
inductive Label where
  | deliver (name : Text)
  | check
  | setOld
  | setOldFails
  | handle (v : Verdict)
  | sleep
  | requeue (name : Text)
  | endSweep
  | take (i : ℕ)
  | finish (i : ℕ) (purges removes : Bool)
  | stop
  | start (moves : Bool)

/-- `removeRequest`: `fs::remove` does not mind a file that is not there, and an
exception of it is caught. -/
def removeRequest (s : State) (name : Text) (removes : Bool) : State :=
  if removes then
    { s with
      old := s.old.erase name
      removed := if name ∈ s.old then s.removed ++ [name] else s.removed }
  else { s with unremoved := s.unremoved ++ [name] }

/-- A request joins the queue of the threads. -/
def addRequest (s : State) (type : CommandType) (name : Text) : State :=
  { s with requestsQueue := s.requestsQueue ++ [⟨type, name⟩] }

/-- A request that is not understood is removed. -/
def refuse (s : State) (name : Text) (removes : Bool) : State :=
  removeRequest { s with refused := s.refused ++ [name] } name removes

/-- The body of the loop over the requests. A cancellation is queued before
anything is looked at. -/
def handle (s : State) (name : Text) (v : Verdict) : State :=
  match v.command with
  | none => refuse s name v.removes
  | some .cancel => addRequest s .cancel name
  | some type =>
      if !v.proxyValid then refuse s name v.removes
      else if v.blacklisted then { s with putOff := s.putOff ++ [name] }
      else addRequest s type name

/-- A file goes back to `new`. -/
def moveBack (s : State) (name : Text) : State :=
  { s with
    new := insert name s.new
    old := s.old.erase name
    requeued := s.requeued ++ [name] }

/-- The end of a command. The guard that removes the request is there in every
command but in one for a rescheduling that finds no token. -/
def endCommand (s : State) (cmd : Command) (purges removes : Bool) : State :=
  if cmd.type = .reschedule ∧ !purges then
    { s with dropped := s.dropped ++ [cmd.request] }
  else
    removeRequest { s with finished := s.finished ++ [cmd.request] } cmd.request
      removes

/-- The requests that the loop has in hand. -/
def Loop.requests : Loop → List Text
  | .fetching _ requests => requests
  | .handling requests => requests
  | _ => []

/-- The requests that the process has in memory. -/
def inMemory (s : State) : List Text :=
  s.loop.requests ++ s.requestsQueue.map (·.request) ++ s.running.map (·.request)

/-- One step of the loop, of a thread or of whoever delivers. -/
def next (cfg : Config) (s : State) : Label → Option State
  | .deliver name =>
      if name ∈ s.arrived then none
      else some { s with
        new := insert name s.new
        arrived := s.arrived ++ [name] }
  | .check =>
      if s.loop = .check then
        if cfg.maxIceThreads < s.requestsQueue.length then
          some { s with loop := .sleeping }
        else some { s with loop := .fetching (s.new.sort (· ≤ ·)) [] }
      else none
  | .setOld =>
      match s.loop with
      | .fetching (name :: entries) requests =>
          if cfg.reqnum ≤ requests.length then
            some { s with loop := .handling requests }
          else if name ∈ s.new then
            some { s with
              new := s.new.erase name
              old := insert name s.old
              loop := .fetching entries (requests ++ [name])
              fetched := s.fetched ++ [name] }
          else some { s with loop := .fetching entries requests }
      | .fetching [] requests => some { s with loop := .handling requests }
      | _ => none
  | .setOldFails =>
      match s.loop with
      | .fetching (_ :: entries) requests =>
          some { s with loop := .fetching entries requests }
      | _ => none
  | .handle v =>
      match s.loop with
      | .handling (name :: requests) =>
          some (handle { s with loop := .handling requests } name v)
      | .handling [] => some { s with loop := .sleeping }
      | _ => none
  | .sleep =>
      if s.loop = .sleeping then
        if 120 ≤ s.countOld + 1 then
          some { s with loop := .sweeping, countOld := 0 }
        else some { s with loop := .check, countOld := s.countOld + 1 }
      else none
  | .requeue name =>
      if s.loop = .sweeping ∧ name ∈ s.old then some (moveBack s name) else none
  | .endSweep => if s.loop = .sweeping then some { s with loop := .check } else none
  | .take i =>
      match s.requestsQueue[i]? with
      | some cmd =>
          some { s with
            requestsQueue := s.requestsQueue.eraseIdx i
            running := s.running ++ [cmd] }
      | none => none
  | .finish i purges removes =>
      match s.running[i]? with
      | some cmd =>
          some (endCommand { s with running := s.running.eraseIdx i } cmd purges
            removes)
      | none => none
  | .stop =>
      if s.loop = .stopped then none
      else some { s with
        loop := .stopped
        requestsQueue := []
        running := []
        lost := s.lost ++ inMemory s }
  | .start moves =>
      if s.loop = .stopped then
        if moves then
          some { s with
            new := s.new ∪ s.old
            old := ∅
            loop := .check
            countOld := 0
            requeued := s.requeued ++ s.old.sort (· ≤ ·) }
        else some { s with loop := .check, countOld := 0 }
      else none

/-! ## What happens to a request -/

/-- Nothing is lost and nothing is done without a reason: a request that has come
is under `new`, under `old` or removed, which it is after it was refused or after
its command has ended. It is fetched once, and once more each time it is moved
back, and every time it is fetched it comes to one end. -/
structure Accounted (s : State) : Prop where
  kept : ∀ name, s.arrived.count name = (if name ∈ s.new then 1 else 0) +
    (if name ∈ s.old then 1 else 0) + s.removed.count name
  unique : s.arrived.Nodup
  reason : ∀ name ∈ s.removed, name ∈ s.refused ∨ name ∈ s.finished
  fetched : ∀ name, s.fetched.count name + (if name ∈ s.new then 1 else 0) =
    s.arrived.count name + s.requeued.count name
  ends : s.fetched.Perm (inMemory s ++ s.refused ++ s.putOff ++ s.dropped ++
    s.finished ++ s.lost)

/-- The move back spares what the process has in memory. -/
def spares (s : State) : Label → Prop
  | .requeue name => name ∉ inMemory s
  | _ => True

instance (s : State) (l : Label) : Decidable (spares s l) := by
  cases l <;> unfold spares <;> infer_instance

/-- A request is in memory once at a time, and is executed to its end or refused
once, and once more each time its file could not be removed then. If the file could
be removed, it is removed. -/
structure Once (s : State) : Prop where
  inMemory : (inMemory s).Nodup
  waiting : ∀ name ∈ MainLoop.inMemory s, name ∈ s.old
  finished : ∀ name,
    (s.finished ++ s.refused).count name ≤ s.unremoved.count name + 1
  removed : ∀ name,
    s.unremoved.count name < (s.finished ++ s.refused).count name → name ∈ s.removed

end Wms.Ice.MainLoop
