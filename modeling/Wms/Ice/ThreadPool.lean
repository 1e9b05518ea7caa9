import Mathlib.Data.Finset.Basic
import Mathlib.Data.List.Range
import Wms.Core.SubmissionUtils
import Wms.Ice.CreamJob
import Wms.Lib.Lts

/-!
# The thread pool (`src/org.glite.wms.ice/src/iceThreads/iceThreadPool.cpp`)

A pool keeps a queue of commands and the set `m_pending_jobs` of the ids of
the commands that are being executed. A worker takes the first command whose
id is not in the set, adds the id and gives the mutex up to execute the
command. Later it takes the mutex again and takes the id out.

The id is never kept. The worker asks the command for it in each scan of the
queue, when it puts it into the set and when it takes it out, and some
commands make their id from the clock. So every question has its own reading
of the clock here.

`m_num_running` is only logged, and `stop` is not modelled.
-/

namespace Wms.Ice.ThreadPool

open Wms.Lib Wms.Core

/-- `struct timeval`. -/
structure Timeval where
  tvSec : ℤ
  tvUsec : ℤ
  deriving DecidableEq

/-- The commands of ICE with what their ids are made of. -/
inductive Command where
  | submit (gridJobid : Text)
  | reschedule (gridJobid : Text)
  | cancel (gridJobId : Text)
  | eventQuery
  | lbLogging
  | delegationRenewal
  | statusPoller
  | updateStatus
  | leaseUpdater
  | jobKill
  | proxyRenewal
  | subUpdater
  deriving DecidableEq

/-- The seconds and the microseconds, neither of them padded. -/
def randid (now : Timeval) : Text :=
  lexicalCastInt now.tvSec ++ '.' :: lexicalCastInt now.tvUsec

/-- The identifier that a command is known by. -/
def Command.getGridJobId (now : Timeval) : Command → Text
  | .submit gridJobid => gridJobid
  | .reschedule gridJobid => gridJobid
  | .cancel gridJobId => gridJobId
  | .eventQuery => randid now
  | .lbLogging => randid now
  | .delegationRenewal => randid now
  | _ => []

/-- A command in the queue, with the number of the call that added it. -/
structure Entry where
  ticket : ℕ
  cmd : Command
  deriving DecidableEq

/-- What a command answered to the question for its id. -/
structure Asked where
  ticket : ℕ
  id : Text
  deriving DecidableEq

/-- What the pool asks a command for its identifier. -/
def Entry.ask (e : Entry) (now : Timeval) : Asked :=
  ⟨e.ticket, e.cmd.getGridJobId now⟩

/-- What the queue answers from its front on, with one reading of the clock
for each command. -/
def answers (clock : ℕ → Timeval) : List Entry → List Asked
  | [] => []
  | e :: q => e.ask (clock 0) :: answers (fun n => clock (n + 1)) q

/-- The position of the first request that can be executed, the length of the
queue if there is none. -/
def getFirstRequest (pendingJobs : Finset Text) (clock : ℕ → Timeval)
    (requestsQueue : List Entry) : ℕ :=
  (answers clock requestsQueue).findIdx fun a => decide (a.id ∉ pendingJobs)

/-- What `getFirstRequest` asks on its way. -/
def scanned (pendingJobs : Finset Text) (clock : ℕ → Timeval)
    (requestsQueue : List Entry) : List Asked :=
  (answers clock requestsQueue).take
    (getFirstRequest pendingJobs clock requestsQueue + 1)

/-- Where a worker is: on its way to the mutex, in the wait for requests, or
executing a command outside the mutex, after `id` went into the set. -/
inductive Pc where
  | looking
  | waiting
  | running (e : Entry) (id : Text)
  deriving DecidableEq

/-- A command that was started, with the id that went into the set. -/
structure Started where
  entry : Entry
  id : Text
  deriving DecidableEq

/-- The state of the pool. The last four fields are its history. -/
structure State (W : Type) where
  requestsQueue : List Entry
  pendingJobs : Finset Text
  aborted : Bool
  pc : W → Pc
  added : List Entry
  asked : List Asked
  started : List Started
  finished : List Entry

/-- No requests, and each worker about to start. -/
def init (W : Type) : State W where
  requestsQueue := []
  pendingJobs := ∅
  aborted := false
  pc := fun _ => .looking
  added := []
  asked := []
  started := []
  finished := []

/-- `enter` is the first critical section of `body`, with the readings of the
clock in the scan of the loop's condition, in the second scan and at the
insertion into the set; `finish` is the last one, and `wake` a wait that ends
by itself. -/
inductive Label (W : Type) where
  | addRequest (req : Command)
  | wake (w : W)
  | enter (w : W) (scan again : ℕ → Timeval) (insertion : Timeval)
  | finish (w : W) (removal : Timeval)

section
variable {W : Type}

/-- The request the second scan finds. -/
def chosen (s : State W) (again : ℕ → Timeval) : Option Entry :=
  s.requestsQueue[getFirstRequest s.pendingJobs again s.requestsQueue]?

/-- All the questions of a step with their answers, the earliest first. -/
def asks (s : State W) : Label W → List Asked
  | .enter _ scan again insertion =>
      scanned s.pendingJobs scan s.requestsQueue ++
        if getFirstRequest s.pendingJobs scan s.requestsQueue =
            s.requestsQueue.length then []
        else scanned s.pendingJobs again s.requestsQueue ++
          ((chosen s again).map fun e => e.ask insertion).toList
  | .finish w removal =>
      match s.pc w with
      | .running e _ => [e.ask removal]
      | _ => []
  | _ => []

/-- What a notification does to a worker. -/
def notified : Pc → Pc
  | .waiting => .looking
  | pc => pc

variable [DecidableEq W]

/-- The end of the first critical section. The assertion about the second
scan fails when there is no request. -/
def takeRequest (s : State W) (w : W) (again : ℕ → Timeval)
    (insertion : Timeval) : State W :=
  match chosen s again with
  | none => { s with aborted := true }
  | some e =>
      let id := e.cmd.getGridJobId insertion
      { s with
        requestsQueue := s.requestsQueue.eraseIdx
          (getFirstRequest s.pendingJobs again s.requestsQueue)
        pendingJobs := insert id s.pendingJobs
        pc := Function.update s.pc w (.running e id)
        started := s.started ++ [⟨e, id⟩] }

/-- A worker looks for a request, takes it or waits. -/
def enter (s : State W) (w : W) (scan again : ℕ → Timeval)
    (insertion : Timeval) : State W :=
  if getFirstRequest s.pendingJobs scan s.requestsQueue =
      s.requestsQueue.length then
    { s with pc := Function.update s.pc w .waiting }
  else takeRequest s w again insertion

/-- One step of a worker or of whoever adds requests. -/
def act (s : State W) : Label W → Option (State W)
  | .addRequest req =>
      let e : Entry := ⟨s.added.length, req⟩
      some { s with
        requestsQueue := s.requestsQueue ++ [e]
        pc := fun w => notified (s.pc w)
        added := s.added ++ [e] }
  | .wake w =>
      match s.pc w with
      | .waiting => some { s with pc := Function.update s.pc w .looking }
      | _ => none
  | .enter w scan again insertion =>
      match s.pc w with
      | .looking => some (enter s w scan again insertion)
      | _ => none
  | .finish w removal =>
      match s.pc w with
      | .running e _ =>
          some { s with
            pendingJobs := s.pendingJobs.erase (e.cmd.getGridJobId removal)
            pc := fun v => notified (Function.update s.pc w .looking v)
            finished := s.finished ++ [e] }
      | _ => none

/-- A failed assertion ends the process. -/
def next (s : State W) (l : Label W) : Option (State W) :=
  if s.aborted then none
  else (act s l).map fun s' => { s' with asked := s.asked ++ asks s l }

end

/-- `get_command_count` -/
def getCommandCount {W : Type} (s : State W) : ℕ := s.requestsQueue.length

end Wms.Ice.ThreadPool
