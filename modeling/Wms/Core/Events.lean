import Mathlib.Logic.Function.Basic
import Wms.Lib.Lts
import Wms.Lib.Multimap

/-!
# The event queue (`src/org.glite.wms.core/src/events.cpp`)

`Events` keeps what is to be done later in two multimaps under one mutex:
`waiting`, by time, and `ready`, by priority and then time. The worker
threads all sit in `Events::run`, which moves the expired entries over and
takes the first ready one.

A worker gives the mutex up at three places only: in the two waits and
before it calls the event. So its program is cut there, and what it does
between two of these places is one step. The clock is read inside such a
section, so the section sees one value of it.

What the code does when it looks into an empty queue is not defined by the
language. The model goes on, as the usual library does, with a wake-up time
nobody can predict, and keeps on record what each look at the front of a
queue found.
-/

namespace Wms.Core.Events

open Wms.Lib

/-- A key of either queue; `std::time_t` and `int` are read as integers. -/
structure TimePriority where
  time : ℤ
  priority : ℤ
  deriving DecidableEq, Repr

/-- `time_first` compares with `<=`, so it is true both ways on equal times. -/
def timeFirst (lhs rhs : TimePriority) : Bool :=
  decide (lhs.time ≤ rhs.time)

/-- `operator<` of the ready queue: by priority, then by time. -/
def priorityFirst (lhs rhs : TimePriority) : Bool :=
  decide (lhs.priority < rhs.priority) ||
    (decide (lhs.priority = rhs.priority) && decide (lhs.time < rhs.time))

/-! The orders the two sequences are kept in. -/

/-- The order of the waiting queue. -/
def timeLe (a b : TimePriority) : Prop := a.time ≤ b.time

/-- The order of the ready queue. -/
def priorityLe (a b : TimePriority) : Prop :=
  a.priority < b.priority ∨ (a.priority = b.priority ∧ a.time ≤ b.time)

instance : Orders timeFirst timeLe where
  le_of_comp := by
    intro a b h
    simpa only [timeFirst, timeLe, decide_eq_true_eq] using h
  le_of_not_comp := by
    intro a b h
    simp only [timeFirst, decide_eq_false_iff_not] at h
    simp only [timeLe]
    omega
  comp_of_comp_le := by
    intro a b c h h'
    simp only [timeFirst, timeLe, decide_eq_true_eq] at h h' ⊢
    omega
  comp_of_le_comp := by
    intro a b c h h'
    simp only [timeFirst, timeLe, decide_eq_true_eq] at h h' ⊢
    omega

instance : Orders priorityFirst priorityLe where
  le_of_comp := by
    intro a b h
    simp only [priorityFirst, Bool.or_eq_true, Bool.and_eq_true,
      decide_eq_true_eq] at h
    simp only [priorityLe]
    omega
  le_of_not_comp := by
    intro a b h
    simp only [priorityFirst, Bool.or_eq_false_iff, Bool.and_eq_false_iff,
      decide_eq_false_iff_not] at h
    simp only [priorityLe]
    omega
  comp_of_comp_le := by
    intro a b c h h'
    simp only [priorityFirst, Bool.or_eq_true, Bool.and_eq_true,
      decide_eq_true_eq] at h ⊢
    simp only [priorityLe] at h'
    omega
  comp_of_le_comp := by
    intro a b c h h'
    simp only [priorityFirst, Bool.or_eq_true, Bool.and_eq_true,
      decide_eq_true_eq] at h' ⊢
    simp only [priorityLe] at h
    omega

/-- An entry of a queue: its key and the function to call. -/
abbrev Entry (α : Type) := TimePriority × α

/-- The events whose time has come. -/
abbrev ReadyQueue (α : Type) := Multimap priorityFirst priorityLe α

/-- The events whose time is still to come. -/
abbrev WaitingQueue (α : Type) := Multimap timeFirst timeLe α

/-- What the mutex protects. -/
structure Impl (α : Type) where
  shutdown : Bool
  ready : ReadyQueue α
  waiting : WaitingQueue α

/-- Turn all the expired waiting events into ready. The priority of the key
the bound is taken at is irrelevant. -/
def expiredToReady {α : Type} (now : ℤ) (q : Impl α) : Impl α :=
  let comp : TimePriority := ⟨now, 0⟩
  { q with
    ready := q.ready.insertRange (q.waiting.before comp)
    waiting := q.waiting.eraseBefore comp }

/-! ## The critical sections of a worker -/

/-- How a critical section ends: in one of the two waits, outside the loop,
or with an event to call. The timed wait comes with the time it was given,
if there was an entry to read it from. -/
inductive Leave (α : Type) where
  | wait
  | timedWait (until_ : Option ℤ)
  | exit
  | call (e : Entry α)

/-- A critical section: the queues it leaves behind, how it ends, and what
each look at the front of a queue found. -/
structure Section (α : Type) where
  impl : Impl α
  leave : Leave α
  waitingReads : List (Option (Entry α))
  readyReads : List (Option (Entry α))

/-- From the inner loop's condition on. -/
def innerLoop {α : Type} (q : Impl α) : Section α :=
  if q.shutdown then
    { impl := q, leave := .exit, waitingReads := [], readyReads := [] }
  else
    match q.ready.entries with
    | [] =>
        { impl := q
          leave := .timedWait (q.waiting.entries.head?.map (·.1.time))
          waitingReads := [q.waiting.entries.head?]
          readyReads := [] }
    | it :: _ =>
        { impl := { q with ready := q.ready.eraseFirst }
          leave := .call it
          waitingReads := []
          readyReads := [q.ready.entries.head?] }

/-- From the outer wait loop's condition on, with the lock held. -/
def outerLoop {α : Type} (now : ℤ) (q : Impl α) : Section α :=
  if !q.shutdown && q.ready.entries.isEmpty && q.waiting.entries.isEmpty then
    { impl := q, leave := .wait, waitingReads := [], readyReads := [] }
  else if q.shutdown then
    { impl := q, leave := .exit, waitingReads := [], readyReads := [] }
  else
    innerLoop (expiredToReady now q)

/-! ## The system

Any number of workers, and the callers of `schedule`, `schedule_at` and
`stop`. An event carries the number of the call that scheduled it, so that
two calls with the same function stay apart. -/

/-- A scheduled function, with the number of the call that scheduled it. -/
structure Event (α : Type) where
  ticket : ℕ
  f : α
  deriving DecidableEq, Repr

/-- Where a worker is. -/
inductive Pc (α : Type) where
  | top
  | locking
  | wait
  | timedWait (until_ : Option ℤ)
  | calling (e : Entry α)
  | exited

/-- An event a worker has taken, and when. -/
structure Taken (W α : Type) where
  worker : W
  now : ℤ
  entry : Entry (Event α)

/-- The state of the system; `scheduled` and `taken` are its history. -/
structure State (W α : Type) where
  clock : ℤ
  impl : Impl (Event α)
  pc : W → Pc (Event α)
  scheduled : List (Entry (Event α))
  taken : List (Taken W α)

/-- No event yet, and each worker about to take the lock. -/
def init (W α : Type) (clock : ℤ) : State W α where
  clock := clock
  impl := { shutdown := false, ready := .empty, waiting := .empty }
  pc := fun _ => .top
  scheduled := []
  taken := []

/-- `schedule` reads the clock before it asks for the lock, so the time it
uses may have passed when the entry is made. -/
inductive Label (W α : Type) where
  | tick (d : ℕ)
  | schedule (f : α) (read : ℤ) (priority : ℤ)
  | scheduleAt (f : α) (t : ℤ) (priority : ℤ)
  | stop
  | check (w : W)
  | lock (w : W)
  | wake (w : W)
  | finish (w : W)
  deriving DecidableEq

section
variable {W α : Type}

/-- The critical section a label stands for, if it is a worker's. A wait may
end at any time, by a notification, at its time or spuriously. -/
def criticalSection (s : State W α) : Label W α → Option (W × Section (Event α))
  | .lock w =>
      match s.pc w with
      | .locking => some (w, outerLoop s.clock s.impl)
      | _ => none
  | .wake w =>
      match s.pc w with
      | .wait => some (w, outerLoop s.clock s.impl)
      | .timedWait _ => some (w, innerLoop (expiredToReady s.clock s.impl))
      | _ => none
  | _ => none

/-- Where a worker is after it has left the lock. -/
def pcAfter {β : Type} : Leave β → Pc β
  | .wait => .wait
  | .timedWait t => .timedWait t
  | .exit => .exited
  | .call e => .calling e

/-- What is put into the queue for the event that is scheduled next. -/
def scheduledEntry (s : State W α) (f : α) (t p : ℤ) : Entry (Event α) :=
  (⟨t, p⟩, ⟨s.scheduled.length, f⟩)

/-- The call that a worker makes as it leaves the lock. -/
def takenBy (w : W) (now : ℤ) : Leave (Event α) → List (Taken W α)
  | .call e => [⟨w, now, e⟩]
  | _ => []

variable [DecidableEq W]

/-- A worker's critical section as a step. -/
def enter (s : State W α) (w : W) (c : Section (Event α)) : State W α :=
  { s with
    impl := c.impl
    pc := Function.update s.pc w (pcAfter c.leave)
    taken := s.taken ++ takenBy w s.clock c.leave }

/-- One step of the clock, of a worker or of whoever schedules. -/
def next (s : State W α) : Label W α → Option (State W α)
  | .tick d => some { s with clock := s.clock + d }
  | .schedule f t p =>
      if t ≤ s.clock then
        let v := scheduledEntry s f t p
        some { s with
          impl := { s.impl with ready := s.impl.ready.insert v }
          scheduled := s.scheduled ++ [v] }
      else none
  | .scheduleAt f t p =>
      let v := scheduledEntry s f t p
      some { s with
        impl := { s.impl with waiting := s.impl.waiting.insert v }
        scheduled := s.scheduled ++ [v] }
  | .stop => some { s with impl := { s.impl with shutdown := true } }
  | .check w =>
      match s.pc w with
      | .top =>
          let pc := if s.impl.shutdown then .exited else .locking
          some { s with pc := Function.update s.pc w pc }
      | _ => none
  | .lock w => (criticalSection s (.lock w)).map fun c => enter s c.1 c.2
  | .wake w => (criticalSection s (.wake w)).map fun c => enter s c.1 c.2
  | .finish w =>
      match s.pc w with
      | .calling _ => some { s with pc := Function.update s.pc w .top }
      | _ => none

end

end Wms.Core.Events
