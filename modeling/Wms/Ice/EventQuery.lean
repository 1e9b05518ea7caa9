import Mathlib.Logic.Function.Basic
import Wms.Ice.CreamJob
import Wms.Lib.Groups
import Wms.Lib.Lts
import Wms.Lib.Table

/-!
# The event query (`src/org.glite.wms.ice/src/iceCommands/iceCommandEventQuery.cpp`)

For a user and a computing element ICE keeps the id of the next event to ask for.
`execute` reads it, asks CREAM for the events from there on, hands these over job
by job and writes the id behind the last of them. It also keeps the id of the data
base its answers come from. Where an answer comes from another one, CREAM has been
scratched: that id is written, the ids of all users of the element are set back in
a second transaction, and the answer is dropped.

What follows is about one computing element. Its users are queried by several
threads, nothing keeps two executions from running at the same time, and the
process may end at any point; what is written stays. Every transaction is a step
of its own, also the two of `checkDatabaseID`.

CREAM is a service elsewhere. What it has and what it replies are part of a step,
any events of any data base, and what is assumed of them is said in `truthful`.
What `processEventsForJob` does with events is left out, and so are the jobs that
`execute` gives up for want of a proxy or of their data base.
-/

namespace Wms.Ice.EventQuery

open Wms.Lib

/-- An event, as CREAM replies with it. -/
structure Event where
  dbid : ℕ
  id : ℕ
  userDN : Text
  jobId : Text
  timestamp : ℤ
  deriving DecidableEq

/-- The job an event is handed over for. -/
def Event.creamJobid (endpoint : Text) (e : Event) : Text := endpoint ++ '/' :: e.jobId

/-- Where an execution is: about to write the first id, about to ask, with an
answer, about to write the data base of the answer where none was known or another
one, about to set back all ids, or with groups of events to hand over. -/
inductive Phase where
  | inserting
  | asking (start : ℕ)
  | checking (dbid : ℕ) (events : List Event)
  | recording (dbid : ℕ) (events : List Event)
  | replacing (dbid : ℕ)
  | resetting
  | processing (groups : List (Text × List Event)) (lastId : ℕ)
  deriving DecidableEq

/-- The id that is asked for. -/
def Phase.askedFrom : Phase → Option ℕ
  | .asking start => some start
  | _ => none

/-- The data base that is to be written where none was known. -/
def Phase.records : Phase → Option ℕ
  | .recording dbid _ => some dbid
  | _ => none

/-- Whether another data base is to be written. -/
def Phase.replaces : Phase → Bool
  | .replacing _ => true
  | _ => false

/-- An execution of `iceCommandEventQuery`, and how far it has come. -/
structure Execution where
  number : ℕ
  userDN : Text
  phase : Phase

/-- `dbid` and `events` are what CREAM has, `savedDbid` and `eventId` what ICE
keeps. `startTime` is when ICE has started, `handed` are the calls of
`processEventsForJob`, and `omitted` are events that were left out of an answer
because they are older than ICE. -/
structure State where
  startTime : ℤ
  dbid : ℕ
  events : List Event
  savedDbid : Option ℕ
  eventId : Text → Option ℕ
  count : ℕ
  executions : Table Execution.number
  handed : List (Text × List Event)
  omitted : List Event

/-- No events, nothing kept and no execution. -/
def init (startTime : ℤ) (dbid : ℕ) : State where
  startTime := startTime
  dbid := dbid
  events := []
  savedDbid := none
  eventId := fun _ => none
  count := 0
  executions := .empty
  handed := []
  omitted := []

/-- Whether an answer leaves an event out on account of its time. That is asked
for where the id is zero. -/
def isOmitted (startTime : ℤ) (start : ℕ) (e : Event) : Bool :=
  start = 0 && e.timestamp < startTime

/-- The greatest id. -/
def lastId (events : List Event) : ℕ := events.foldl (fun last e => max last e.id) 0

/-- `mapped_events` -/
def mappedEvents (endpoint : Text) (events : List Event) :
    OrderedMap Text (List Event) :=
  group (·.creamJobid endpoint) events

/-- What CREAM does, the transactions and the calls of executions, and the end of
the process with its next start. A query has the reply of CREAM in it. -/
inductive Label where
  | happen (e : Event)
  | scratch (dbid : ℕ)
  | getEventID (userDN : Text)
  | insertEventID (number : ℕ)
  | giveUp (number : ℕ)
  | query (number : ℕ) (dbid : ℕ) (events : List Event)
  | getDbID (number : ℕ)
  | setDbID (number : ℕ)
  | setEventIDForCE (number : ℕ)
  | handOver (number : ℕ)
  | setEventID (number : ℕ)
  | restart (startTime : ℤ)

/-- `CreamProxy_QueryEvent`, with the reply. -/
def ask (s : State) (number : ℕ) (userDN : Text) (start dbid : ℕ)
    (events : List Event) : State :=
  { s with
    executions := s.executions.put ⟨number, userDN, .checking dbid events⟩
    omitted := s.omitted ++ s.events.filter fun e =>
      e.userDN = userDN && isOmitted s.startTime start e }

/-- The answer is used. -/
def process (endpoint : Text) (s : State) (number : ℕ) (userDN : Text)
    (events : List Event) : State :=
  if events.isEmpty then { s with executions := s.executions.delete number }
  else
    { s with executions := s.executions.put ⟨number, userDN,
        .processing (mappedEvents endpoint events).entries (lastId events)⟩ }

/-- The first transaction of `checkDatabaseID`. -/
def getDbID (endpoint : Text) (s : State) (number : ℕ) (userDN : Text)
    (dbid : ℕ) (events : List Event) : State :=
  match s.savedDbid with
  | none =>
      { s with
        executions := s.executions.put ⟨number, userDN, .recording dbid events⟩ }
  | some olddbid =>
      if olddbid = dbid then process endpoint s number userDN events
      else
        { s with executions := s.executions.put ⟨number, userDN, .replacing dbid⟩ }

/-- One step; `none` where it is not the turn of the step. -/
def next (endpoint : Text) (s : State) : Label → Option State
  | .happen e => some { s with events := s.events ++ [e] }
  | .scratch dbid => some { s with dbid := dbid, events := [] }
  | .getEventID userDN =>
      let phase := match s.eventId userDN with
        | none => Phase.inserting
        | some id => .asking id
      some { s with
        count := s.count + 1
        executions := s.executions.put ⟨s.count, userDN, phase⟩ }
  | .insertEventID number =>
      match s.executions.find? number with
      | some ⟨_, userDN, .inserting⟩ =>
          some { s with
            eventId := Function.update s.eventId userDN (some 0)
            executions := s.executions.put ⟨number, userDN, .asking 0⟩ }
      | _ => none
  | .giveUp number =>
      match s.executions.find? number with
      | some ⟨_, _, .asking _⟩ =>
          some { s with executions := s.executions.delete number }
      | _ => none
  | .query number dbid events =>
      match s.executions.find? number with
      | some ⟨_, userDN, .asking start⟩ =>
          some (ask s number userDN start dbid events)
      | _ => none
  | .getDbID number =>
      match s.executions.find? number with
      | some ⟨_, userDN, .checking dbid events⟩ =>
          some (getDbID endpoint s number userDN dbid events)
      | _ => none
  | .setDbID number =>
      match s.executions.find? number with
      | some ⟨_, userDN, .recording dbid events⟩ =>
          some (process endpoint { s with savedDbid := some dbid } number userDN
            events)
      | some ⟨_, userDN, .replacing dbid⟩ =>
          some { s with
            savedDbid := some dbid
            executions := s.executions.put ⟨number, userDN, .resetting⟩ }
      | _ => none
  | .setEventIDForCE number =>
      match s.executions.find? number with
      | some ⟨_, _, .resetting⟩ =>
          some { s with
            eventId := fun userDN => (s.eventId userDN).map fun _ => 0
            executions := s.executions.delete number }
      | _ => none
  | .handOver number =>
      match s.executions.find? number with
      | some ⟨_, userDN, .processing (g :: groups) last⟩ =>
          some { s with
            executions := s.executions.put ⟨number, userDN, .processing groups last⟩
            handed := s.handed ++ [g] }
      | _ => none
  | .setEventID number =>
      match s.executions.find? number with
      | some ⟨_, userDN, .processing [] last⟩ =>
          some { s with
            eventId := Function.update s.eventId userDN (some (last + 1))
            executions := s.executions.delete number }
      | _ => none
  | .restart startTime =>
      some { s with startTime := startTime, executions := .empty }

/-! ## What is assumed of CREAM -/

/-- The ids of the events grow. -/
def Growing (events : List Event) : Prop := events.Pairwise fun e e' => e.id < e'.id

/-- A reply tells the data base that is there. Its events are events of the user,
from the id on that was asked for, in the order of their ids and without a gap: what
is missing before its last one was left out on account of its time. -/
structure Reply (s : State) (userDN : Text) (start dbid : ℕ) (events : List Event) :
    Prop where
  current : dbid = s.dbid
  real : ∀ e ∈ events, e ∈ s.events ∧ e.userDN = userDN ∧ start ≤ e.id
  sorted : Growing events
  gapless : ∀ e ∈ s.events, e.userDN = userDN → start ≤ e.id →
    (∃ e' ∈ events, e.id ≤ e'.id) →
    e ∈ events ∨ isOmitted s.startTime start e = true

/-- The ids of a data base grow, a new data base has a greater number than the one
before, and queries get such replies. -/
def truthful (s : State) : Label → Prop
  | .happen e => e.dbid = s.dbid ∧ ∀ e' ∈ s.events, e'.id < e.id
  | .scratch dbid => s.dbid < dbid
  | .query number dbid events =>
      ∀ x ∈ s.executions.rows, x.number = number → ∀ start ∈ x.phase.askedFrom,
        Reply s x.userDN start dbid events
  | _ => True

/-! ## What is asked of it -/

/-- No execution is between the two transactions that set back the ids. -/
def Quiet (s : State) : Prop := ∀ x ∈ s.executions.rows, x.phase ≠ .resetting

/-- An event has been handed over for its job, or was left out. -/
def Covered (endpoint : Text) (s : State) (e : Event) : Prop :=
  (∃ g ∈ s.handed, g.1 = e.creamJobid endpoint ∧ e ∈ g.2) ∨ e ∈ s.omitted

/-- No event of the data base that ICE knows is passed over. -/
def Complete (endpoint : Text) (s : State) : Prop :=
  Quiet s → s.savedDbid = some s.dbid →
    ∀ e ∈ s.events, ∀ id, s.eventId e.userDN = some id → e.id < id →
      Covered endpoint s e

/-- Who has found no data base writes its own only where no other one has been
written since, another data base is written by an execution that has no other beside
it, and nothing starts between this and the transaction that sets back the ids. -/
def careful (s : State) : Label → Prop
  | .setDbID number =>
      ∀ x ∈ s.executions.rows, x.number = number →
        (∀ dbid ∈ x.phase.records,
          s.savedDbid = none ∨ s.savedDbid = some dbid) ∧
        (x.phase.replaces = true → ∀ y ∈ s.executions.rows, y.number = number)
  | .getEventID _ => Quiet s
  | .restart _ => Quiet s
  | _ => True

/-- The executions for a user come one after the other, the process does not end in
one, and CREAM is not scratched in one. -/
def alone (s : State) : Label → Prop
  | .getEventID userDN => ∀ x ∈ s.executions.rows, x.userDN ≠ userDN
  | .scratch _ => s.executions.rows = []
  | .restart _ => s.executions.rows = []
  | _ => True

instance (s : State) : Decidable (Quiet s) :=
  inferInstanceAs (Decidable (∀ x ∈ s.executions.rows, x.phase ≠ .resetting))

instance (events : List Event) : Decidable (Growing events) :=
  inferInstanceAs (Decidable (events.Pairwise fun e e' => e.id < e'.id))

theorem reply_iff {s : State} {userDN : Text} {start dbid : ℕ} {events : List Event} :
    Reply s userDN start dbid events ↔
      dbid = s.dbid ∧ (∀ e ∈ events, e ∈ s.events ∧ e.userDN = userDN ∧ start ≤ e.id) ∧
      Growing events ∧ ∀ e ∈ s.events, e.userDN = userDN → start ≤ e.id →
        (∃ e' ∈ events, e.id ≤ e'.id) →
        e ∈ events ∨ isOmitted s.startTime start e = true :=
  ⟨fun h => ⟨h.current, h.real, h.sorted, h.gapless⟩,
    fun ⟨hcurrent, hreal, hsorted, hgapless⟩ =>
      ⟨hcurrent, hreal, hsorted, hgapless⟩⟩

instance (s : State) (userDN : Text) (start dbid : ℕ) (events : List Event) :
    Decidable (Reply s userDN start dbid events) := decidable_of_iff' _ reply_iff

instance (s : State) (l : Label) : Decidable (truthful s l) := by
  cases l <;> unfold truthful <;> infer_instance

instance (s : State) (l : Label) : Decidable (careful s l) := by
  cases l <;> unfold careful <;> infer_instance

instance (s : State) (l : Label) : Decidable (alone s l) := by
  cases l <;> unfold alone <;> infer_instance

/-- All that has been handed over for a user's job. -/
def handedFor (s : State) (userDN job : Text) : List Event :=
  ((s.handed.filter fun g => g.1 = job).flatMap (·.2)).filter fun e => e.userDN = userDN

/-- The order in which CREAM has had the events. -/
def Event.before (e e' : Event) : Prop :=
  e.dbid < e'.dbid ∨ e.dbid = e'.dbid ∧ e.id < e'.id

/-- No event is handed over twice, and those of a job in their order. -/
def InOrder (s : State) : Prop :=
  ∀ userDN job, (handedFor s userDN job).Pairwise Event.before

end Wms.Ice.EventQuery
