import Wms.Core.Calls

/-!
# LB queries (`src/org.glite.wms.core/src/lb_utils.cpp`)

What the manager reads out of the events and the status of a job.
-/

namespace Wms.Core

open Wms.Lib

/-- The errors after which a query is made again. -/
def isRetryable : Errno → Bool
  | .etimedout => true
  | .enotconn => true
  | .econnrefused => true
  | .eagain => true
  | _ => false

/-- The exception an unsuccessful query is turned into. -/
def queryError (error : Errno) : Exn :=
  if isRetryable error then .lbQueryTemporarilyFailed else .lbQueryFailed

/-- What the answer to a query comes to. -/
def queryResult (enoentIsError : Bool) :
    Except Errno (List LbEvent) → Except Exn (List LbEvent)
  | .ok events => .ok events
  | .error error =>
      if !enoentIsError && error = .enoent then .ok []
      else .error (queryError error)

/-- A query that is repeated until it is answered; no events may be an error. -/
def doQueryEvents (q : Query) (enoentIsError : Bool) :
    WmProc (List LbEvent) := do
  let answer ← ask (.query q)
  Proc.ofExcept (queryResult enoentIsError answer)

/-! The conditions of the queries, as the LB applies them to an event. -/

/-- The kinds of events that the queries and the counts tell apart. -/
def isEnQueued : EventKind → Bool
  | .enQueued .. => true
  | _ => false

def isDone : EventKind → Bool
  | .done _ => true
  | _ => false

def isMatch : EventKind → Bool
  | .match_ _ => true
  | _ => false

def isResubmission : EventKind → Bool
  | .resubmission .. => true
  | _ => false

def isUserTag : EventKind → Bool
  | .userTag .. => true
  | _ => false

/-- Which events the L&B answers a query with. -/
def Query.selects (q : Query) (e : LbEvent) : Bool :=
  match q with
  | .recovery =>
      (isEnQueued e.kind || isDone e.kind) &&
        (e.source = .workloadManager || e.source = .logMonitor)
  | .interesting =>
      (isMatch e.kind || isResubmission e.kind || isUserTag e.kind) &&
        (e.source = .workloadManager || e.source = .bigHelper)
  | .originalJdl => isEnQueued e.kind && e.source = .networkServer
  | .lastMatched => isMatch e.kind && e.source = .workloadManager

/-- What the LB answers, unless it fails: the events logged so far. -/
def lbAnswer (lb : List LbEvent) (q : Query) :
    Except Errno (List LbEvent) → Except Errno (List LbEvent)
  | .ok _ => .ok (lb.filter q.selects)
  | .error e => .error e

/-- An event as the manager logs it. -/
def logged (e : EventKind) : LbEvent := ⟨.workloadManager, 0, e⟩

/-- `get_recovery_events` -/
def getRecoveryEvents : WmProc (List LbEvent) :=
  doQueryEvents .recovery false

/-- `get_interesting_events` -/
def getInterestingEvents : WmProc (List LbEvent) :=
  doQueryEvents .interesting true

/-! ## Retry counts -/

/-- `is_deep_resubmission` -/
def isDeepResubmission (event : LbEvent) : Bool :=
  match event.kind with
  | .resubmission result _ _ => result = .willResub
  | _ => false

/-- `is_shallow_resubmission` -/
def isShallowResubmission (event : LbEvent) : Bool :=
  match event.kind with
  | .resubmission result _ _ => result = .shallow
  | _ => false

/-- The events from the last deep resubmission on, or all of them. -/
def fromLastDeepResubmission (events : List LbEvent) : List LbEvent :=
  match events with
  | [] => []
  | e :: rest =>
      if rest.any isDeepResubmission then fromLastDeepResubmission rest
      else e :: rest

/-- `get_retry_counts`: the deep ones, and the shallow ones since the last of these. -/
def getRetryCounts (events : List LbEvent) : ℤ × ℤ :=
  let deepCount := events.countP isDeepResubmission
  let shallowCount :=
    (fromLastDeepResubmission events).countP isShallowResubmission
  (deepCount, shallowCount)

/-- The tags named `JDLPrivate::CE_INFO_HOST`, whatever the case. -/
def getPreviousMatches (cfg : Config) (events : List LbEvent) :
    List (String × ℤ) :=
  events.filterMap fun event =>
    match event.kind with
    | .userTag name value =>
        if name.toLower = cfg.ceInfoHost.toLower then
          some (value, event.timestamp)
        else none
    | _ => none

/-! ## The original description and the last match -/

/-- The first job text logged with a successful transfer that is not empty. -/
def firstJobText : List LbEvent → JobText
  | [] => .empty
  | event :: rest =>
      match event.kind with
      | .enQueued .ok _ job _ =>
          match job with
          | .empty => firstJobText rest
          | text => text
      | _ => firstJobText rest

/-- `get_original_jdl` -/
def getOriginalJdl : WmProc JobText := do
  match ← ask (.query .originalJdl) with
  | .ok events => pure (firstJobText events)
  | .error error => .throw (queryError error)

/-- `get_last_matched_ceid`: none is an empty text. -/
def getLastMatchedCeid : WmProc Text := do
  let matchEvents ← doQueryEvents .lastMatched false
  match matchEvents.getLast? with
  | some ⟨_, _, .match_ destId⟩ => pure destId
  | _ => pure []

/-! ## Status and limbo -/

/-- `job_status` for an id: the context it makes for itself may fail. -/
def jobStatus : WmProc (Option JobStat) := do
  match ← ask .jobStatus with
  | .ok status => pure status
  | .error what => .throw (.cannotCreateLBContext what)

/-- Whether the L&B says that the job is in a state. -/
def isInState (state : JobState) (status : Option JobStat) : Bool :=
  match status with
  | some s => s.state = state
  | none => false

/-- An EnQueued event of the manager itself. -/
def isEnQueuedToJc (event : LbEvent) : Bool :=
  isEnQueued event.kind && event.source = .workloadManager

/-- A Done event of the log monitor. -/
def isDoneEvent (event : LbEvent) : Bool :=
  isDone event.kind && event.source = .logMonitor

/-- The last event with a property. -/
def findLast (p : LbEvent → Bool) (events : List LbEvent) : Option LbEvent :=
  events.reverse.find? p

/-- `is_last_done`: the last Done event has this code. -/
def isLastDone (events : List LbEvent) (statusCode : DoneStatus) : Bool :=
  match findLast isDoneEvent events with
  | some ⟨_, _, .done code⟩ => code = statusCode
  | _ => false

/-- The last event of the list that has the property. -/
theorem findLast_eq_some_iff {p : LbEvent → Bool} {events : List LbEvent}
    {e : LbEvent} :
    findLast p events = some e ↔ p e = true ∧
      ∃ before after, events = before ++ e :: after ∧
        ∀ x ∈ after, p x = false := by
  rw [findLast, List.find?_eq_some_iff_append]
  refine and_congr_right fun _ => ⟨?_, ?_⟩
  · rintro ⟨after, before, hsplit, hnot⟩
    refine ⟨before.reverse, after.reverse, ?_, fun x hx => ?_⟩
    · have hback := congrArg List.reverse hsplit
      simpa using hback
    · have hx' := hnot x (List.mem_reverse.mp hx)
      simpa using hx'
  · rintro ⟨before, after, rfl, hnot⟩
    refine ⟨after.reverse, before.reverse, by simp, fun x hx => ?_⟩
    rw [hnot x (List.mem_reverse.mp hx)]
    rfl

/-- What the log monitor has said last of the end of the job is that status,
whatever else was logged since. -/
theorem isLastDone_iff {events : List LbEvent} {statusCode : DoneStatus} :
    isLastDone events statusCode = true ↔
      ∃ before timestamp after,
        events = before ++ ⟨.logMonitor, timestamp, .done statusCode⟩ :: after ∧
          ∀ e ∈ after, isDoneEvent e = false := by
  constructor
  · intro h
    unfold isLastDone at h
    split at h
    · next source timestamp code hlast =>
        obtain ⟨hdone, before, after, hsplit, hafter⟩ :=
          findLast_eq_some_iff.mp hlast
        obtain rfl : code = statusCode := of_decide_eq_true h
        obtain rfl : source = .logMonitor := of_decide_eq_true hdone
        exact ⟨before, timestamp, after, hsplit, hafter⟩
    · cases h
  · rintro ⟨before, timestamp, after, hsplit, hafter⟩
    have hlast : findLast isDoneEvent events =
        some ⟨.logMonitor, timestamp, .done statusCode⟩ :=
      findLast_eq_some_iff.mpr ⟨rfl, before, after, hsplit, hafter⟩
    rw [isLastDone, hlast]
    exact decide_eq_true rfl

/-- `is_last_enqueued_by_wm` -/
def isLastEnQueuedByWm (events : List LbEvent) (result : EnQueuedResult) :
    Bool :=
  match findLast isEnQueuedToJc events with
  | some ⟨_, _, .enQueued r _ _ _⟩ => r = result
  | _ => false

/-- `in_limbo`: the job may have been delivered or not. -/
def inLimbo (status : Option JobStat) (events : List LbEvent) : Bool :=
  let lastEnqueuedByWmIsStart := isLastEnQueuedByWm events .start
  (isInState .ready status && lastEnqueuedByWmIsStart) ||
    (isInState .done status && isLastDone events .failed &&
      lastEnqueuedByWmIsStart)

end Wms.Core
