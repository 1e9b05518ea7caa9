import Wms.Jobsubmission.SizeFile
import Wms.Lib.Multimap

/-!
# The events of a Condor log (`logmonitor/processer`, `CondorMonitor.cpp`)

Every event of the log, and every timeout that has expired, goes to a handler
of its kind. The handlers share the size file of the log, the jobs that are
known by their two ids, the list of the jobs that got an error, and the
timeouts.

A handler that throws ends the daemon, and `none` stands for it. What the
handlers are told from outside comes with the event.
-/

namespace Wms.Jobsubmission.LogMonitor

open Wms.Lib

/-! ## The jobs (`common/id_container.cpp`) -/

/-- The last status of a job of which nothing is known, and of one that was cancelled. -/
def undefinedStatus : ℤ := -2

def noResubmission : ℤ := -1

/-- `IdContainer` keeps one of these for each job. -/
structure PointerId where
  condorId : Text
  edgId : Text
  sequenceCode : Text
  condorStatus : ℤ
  lastStatus : ℤ
  retryCount : ℤ
  deriving DecidableEq

/-- No id of either kind is there twice. -/
structure IdContainer where
  pointers : List PointerId
  condors : (pointers.map PointerId.condorId).Nodup
  edgs : (pointers.map PointerId.edgId).Nodup

namespace IdContainer

/-- `position_by_condor_id` -/
def positionByCondorId (c : IdContainer) (condorId : Text) :
    Option PointerId :=
  c.pointers.find? fun p => p.condorId = condorId

/-- `position_by_edg_id` -/
def positionByEdgId (c : IdContainer) (edgId : Text) : Option PointerId :=
  c.pointers.find? fun p => p.edgId = edgId

/-- Whether either id has an entry. -/
def taken (c : IdContainer) (edgId condorId : Text) : Bool :=
  (c.positionByEdgId edgId).isSome || (c.positionByCondorId condorId).isSome

theorem mem_of_position {c : IdContainer} {p : PointerId} {condorId : Text}
    (h : c.positionByCondorId condorId = some p) :
    p ∈ c.pointers ∧ p.condorId = condorId :=
  ⟨List.mem_of_find?_eq_some h, by simpa using List.find?_some h⟩

theorem fresh_of_not_taken {c : IdContainer} {edgId condorId : Text}
    (h : c.taken edgId condorId = false) :
    condorId ∉ c.pointers.map PointerId.condorId ∧
      edgId ∉ c.pointers.map PointerId.edgId := by
  rw [taken, Bool.or_eq_false_iff, Option.isSome_eq_false_iff,
    Option.isSome_eq_false_iff, Option.isNone_iff_eq_none,
    Option.isNone_iff_eq_none] at h
  constructor
  · intro hmem
    obtain ⟨p, hp, rfl⟩ := List.mem_map.mp hmem
    exact absurd (List.find?_eq_none.mp h.2 p hp) (by simp)
  · intro hmem
    obtain ⟨p, hp, rfl⟩ := List.mem_map.mp hmem
    exact absurd (List.find?_eq_none.mp h.1 p hp) (by simp)

/-- The flag says that nothing was inserted. -/
def insert (c : IdContainer) (edgId condorId sequenceCode : Text) :
    Bool × IdContainer :=
  if h : c.taken edgId condorId = true then (true, c)
  else
    let p : PointerId :=
      ⟨condorId, edgId, sequenceCode, 0, undefinedStatus, 0⟩
    have hfresh := fresh_of_not_taken (Bool.eq_false_iff.mpr h)
    (false,
      { pointers := c.pointers ++ [p]
        condors := by
          rw [List.map_append, List.nodup_append]
          refine ⟨c.condors, List.pairwise_singleton _ _, fun a ha b hb => ?_⟩
          rintro rfl
          obtain rfl := List.mem_singleton.mp hb
          exact hfresh.1 ha
        edgs := by
          rw [List.map_append, List.nodup_append]
          refine ⟨c.edgs, List.pairwise_singleton _ _, fun a ha b hb => ?_⟩
          rintro rfl
          obtain rfl := List.mem_singleton.mp hb
          exact hfresh.2 ha })

/-- A change of one entry that keeps its ids. -/
def modify (c : IdContainer) (edgId : Text) (f : PointerId → PointerId)
    (hf : ∀ p, (f p).condorId = p.condorId ∧ (f p).edgId = p.edgId) :
    IdContainer where
  pointers := c.pointers.map fun p => if p.edgId = edgId then f p else p
  condors := by
    rw [List.map_map]
    have hkeep : (PointerId.condorId ∘ fun p : PointerId =>
        if p.edgId = edgId then f p else p) = PointerId.condorId := by
      funext p
      rw [Function.comp_apply]
      split
      · exact (hf p).1
      · rfl
    rw [hkeep]
    exact c.condors
  edgs := by
    rw [List.map_map]
    have hkeep : (PointerId.edgId ∘ fun p : PointerId =>
        if p.edgId = edgId then f p else p) = PointerId.edgId := by
      funext p
      rw [Function.comp_apply]
      split
      · exact (hf p).2
      · rfl
    rw [hkeep]
    exact c.edgs

/-- `update_pointer` -/
def updatePointer (c : IdContainer) (position : PointerId)
    (sequenceCode : Text) (status lastStatus : ℤ) : IdContainer :=
  c.modify position.edgId
    (fun p => { p with
      sequenceCode := sequenceCode
      condorStatus := status
      lastStatus :=
        if lastStatus ≠ undefinedStatus then lastStatus else p.lastStatus })
    fun _ => ⟨rfl, rfl⟩

/-- `increment_pointer_retry_count` -/
def incrementPointerRetryCount (c : IdContainer) (position : PointerId) :
    IdContainer :=
  c.modify position.edgId (fun p => { p with retryCount := p.retryCount + 1 })
    fun _ => ⟨rfl, rfl⟩

/-- `remove`, which goes by the id of the job. -/
def removeByEdgId (c : IdContainer) (edgId : Text) : IdContainer where
  pointers := c.pointers.filter fun p => p.edgId ≠ edgId
  condors := c.condors.sublist (List.filter_sublist.map _)
  edgs := c.edgs.sublist (List.filter_sublist.map _)

end IdContainer

/-! ## The size file -/

namespace SizeFile

/-- `set_last` -/
def setLast (sf : SizeFile) (newLast : Bool) : SizeFile :=
  if sf.good then { sf with current := { sf.current with last := newLast } }
  else sf

/-- `unsigned int` wraps. -/
def incrementPending (sf : SizeFile) : SizeFile :=
  if sf.good then
    { sf with
      current := { sf.current with
        pending := (sf.current.pending + 1) % 2 ^ 32 } }
  else sf

/-- `decrement_pending` -/
def decrementPending (sf : SizeFile) : SizeFile :=
  if sf.good then
    { sf with current := { sf.current with pending := sf.current.pending - 1 } }
  else sf

/-- `completed`: nothing more is to come of the log. -/
def completed (sf : SizeFile) : Bool :=
  sf.good && sf.current.last && sf.current.pending = 0

end SizeFile

/-! ## Events -/

/-- The kinds of `ULogEvent`, with what the handlers read of them. -/
inductive Kind where
  | submit (logNotes : Text)
  | execute (executeHost : Text)
  | globusSubmit (rmContact : Text)
  | globusSubmitFailed (reason : Text)
  | globusResourceDown
  | jobHeld (reason : Text) (reasonSubCode : ℤ)
  | generic (info : Text)
  | jobTerminated
  | jobAborted (reason : Text)

/-- What an event of a Condor log says. -/
structure ULogEvent where
  cluster : ℤ
  proc : ℤ
  kind : Kind

/-- The id of a job in Condor. -/
def ULogEvent.condor (event : ULogEvent) : Text :=
  if event.proc = 0 then decimal event.cluster
  else decimal event.cluster ++ '.' :: decimal event.proc

/-- The numbers of the events. -/
def ulogSubmit : ℤ := 0

/-- The event numbers of Condor that are named below. -/
def ulogExecute : ℤ := 1
def ulogJobTerminated : ℤ := 5
def ulogGeneric : ℤ := 8
def ulogJobHeld : ℤ := 12
def ulogGlobusSubmit : ℤ := 17
def ulogGlobusSubmitFailed : ℤ := 18

/-- The events that timeouts are started for. -/
inductive TimeoutEvent where
  | retryRemove (cluster : ℤ)
  | globusSubmitFailed (cluster : ℤ)
  deriving DecidableEq

/-- The cluster whose timer it is. -/
def TimeoutEvent.cluster : TimeoutEvent → ℤ
  | .retryRemove cluster => cluster
  | .globusSubmitFailed cluster => cluster

/-- `to_event`: when its time is over it comes back as an event of the log. -/
def TimeoutEvent.toEvent : TimeoutEvent → ULogEvent
  | .retryRemove cluster =>
      ⟨cluster, 0, .generic "LM: 2 - Must retry job removal".toList⟩
  | .globusSubmitFailed cluster =>
      ⟨cluster, 0, .globusSubmitFailed
        ("LM message: the timeout attached to the " ++
          "globus-down event expired.").toList⟩

/-! ## What goes out and what comes in -/

/-- What is logged to the L&B about a job. -/
inductive LbEvent where
  | condorSubmit (condorId : Text)
  | execute (host : Text)
  | globusSubmit (ce : Text)
  | globusSubmitFailed (reason : Text)
  | jobHeld (reason : Text)
  | reallyRun (sequenceCode : Text)
  | terminated (retcode : ℤ)
  | failedOnError (reason : Text)
  | abortOnError (reason : Text)
  | abortedBySystem (reason : Text)
  | abortedByUser
  | resubmitting
  | wmEnqueuedStart | wmEnqueuedOk | wmEnqueuedFailed
  deriving DecidableEq

/-- What leaves the monitor: to the L&B or to Condor. -/
inductive Sent where
  | context (edgId sequenceCode : Text)
  | log (event : LbEvent)
  | cancel (cluster : ℤ)
  | resubmit (edgId sequenceCode : Text)
  | unregister (edgId : Text)
  | purge (edgId : Text) (sandbox : Bool)
  /-- The files of a job that has no id. -/
  | purgeNone
  deriving DecidableEq

/-- What the parsed output says about the job. -/
inductive JwopStatus where
  | good | resubmit | abort | other
  deriving DecidableEq

/-- What `JobWrapperOutputParser::parse_file` answers. -/
structure JwOutput where
  status : JwopStatus
  retcode : ℤ
  errors : Text
  sc : Text
  doneReason : Text

/-- What the rest of the system answers while an event is processed. -/
structure Answers where
  now : ℤ
  /-- The sequence code of the logger after what was logged. -/
  sequenceCode : Text
  jwOutput : JwOutput
  delivered : Bool

/-- The configuration, with the codes of Globus that are compared with. -/
structure Conf where
  abortedJobsTimeout : ℤ
  globusDownTimeout : ℤ
  forceCancellationRetries : ℤ
  userProxyExpired : ℤ
  stageOutFailed : ℤ
  jobCancelFailed : ℤ

/-! ## The monitor of one log -/

/-- `MonitorData`, and in it all that a monitor remembers. -/
structure MonitorData where
  sizefile : SizeFile
  container : IdContainer
  aborted : List Text
  timer : Entries ℤ TimeoutEvent
  sent : List Sent

namespace MonitorData

/-- Something more is sent. -/
def send (m : MonitorData) (s : List Sent) : MonitorData :=
  { m with sent := m.sent ++ s }

/-- The context of the logger, for a job. -/
def setContext (m : MonitorData) (position : PointerId) : MonitorData :=
  m.send [.context position.edgId position.sequenceCode]

/-- `Timer::start_timer` -/
def startTimer (m : MonitorData) (expire : ℤ) (event : TimeoutEvent) :
    MonitorData :=
  { m with
    timer := Entries.insert (fun a b => decide (a < b)) (expire, event) m.timer }

/-- `remove_all_timeouts` -/
def removeAllTimeouts (m : MonitorData) (cluster : ℤ) : MonitorData :=
  { m with timer := m.timer.filter fun t => t.2.cluster ≠ cluster }

/-- `AbortedContainer::insert` -/
def abortedInsert (m : MonitorData) (condorId : Text) : MonitorData :=
  { m with
    aborted :=
      if m.aborted.contains condorId then m.aborted else m.aborted ++ [condorId] }

/-- `AbortedContainer::remove` -/
def abortedRemove (m : MonitorData) (condorId : Text) : MonitorData :=
  { m with aborted := m.aborted.erase condorId }

/-- `update_pointer` on the container of the monitor. -/
def updatePointer (m : MonitorData) (position : PointerId)
    (sequenceCode : Text) (status : ℤ) (lastStatus : ℤ) : MonitorData :=
  { m with
    container :=
      m.container.updatePointer position sequenceCode status lastStatus }

/-- `increment_pointer_retry_count` on the container of the monitor. -/
def incrementRetryCount (m : MonitorData) (position : PointerId) :
    MonitorData :=
  { m with container := m.container.incrementPointerRetryCount position }

/-- `remove` on the container of the monitor. -/
def remove (m : MonitorData) (position : PointerId) : MonitorData :=
  { m with container := m.container.removeByEdgId position.edgId }

end MonitorData

/-! ## The texts that are matched -/

/-- At the last place where the separator stands. -/
def splitLast (sep : Text) : Text → Option (Text × Text)
  | [] => none
  | c :: rest =>
      match splitLast sep rest with
      | some (a, b) => some (c :: a, b)
      | none =>
          if sep.isPrefixOf (c :: rest) then
            some ([], (c :: rest).drop sep.length)
          else none

/-- The notes of a submission: the id of the job, its sequence code, and whether
it is the last one. Both texts may be anything, and the first takes what it
can. -/
def matchNotes (notes : Text) : Option (Text × Text × Bool) :=
  match notes.dropWhile IStream.isSpace with
  | '(' :: rest =>
      let body := rest.take (rest.length - 5)
      let ends := rest.drop (rest.length - 5)
      if ends = ") (0)".toList ∨ ends = ") (1)".toList then
        (splitLast ") (".toList body).map fun (edgId, sequenceCode) =>
          (edgId, sequenceCode, decide (ends = ") (1)".toList))
      else none
  | _ => none

/-- The digits of a message of the JobController or of an expired timeout. -/
def matchGeneric (info : Text) : Option Text :=
  if info.take 4 = "JC: ".toList ∨ info.take 4 = "LM: ".toList then
    let code := (info.drop 4).takeWhile Char.isDigit
    if code ≠ [] ∧ " - ".toList.isPrefixOf (info.drop (4 + code.length)) then
      some code
    else none
  else none

/-- `lexical_cast<int>` of digits. -/
def lexicalInt (code : Text) : Option ℕ :=
  let n := Nat.ofDigitChars 10 code 0
  if n < 2 ^ 31 then some n else none

/-! ## The handlers -/

/-- What the L&B is told of a job that Condor gave up. -/
def jobError : Text := "Job got an error while in the CondorG queue.".toList

/-- What the L&B is told of a wrapper that failed. -/
def jobWrapFail : Text := "Failure while executing job wrapper".toList

/-- `JobResubmitter::resubmit` without its container: the command for the WM. -/
def enqueue (ans : Answers) (edgId sequenceCode sc : Text) (m : MonitorData) :
    Option MonitorData :=
  let m :=
    if sc ≠ [] ∧ sc ≠ "NoToken".toList then m.send [.log (.reallyRun sc)] else m
  let m := m.send [.log .resubmitting, .log .wmEnqueuedStart]
  if ans.delivered then
    some (m.send [.resubmit edgId sequenceCode, .log .wmEnqueuedOk])
  else none

/-- `JobResubmitter::resubmit`: what the last status says about a job that has ended. -/
def resubmit (conf : Conf) (ans : Answers) (lastStatus : ℤ)
    (edgId sequenceCode : Text) (m : MonitorData) : Option MonitorData :=
  if lastStatus = conf.userProxyExpired then
    some (m.send [.log (.abortOnError "Job proxy is expired.".toList),
      .unregister edgId])
  else if lastStatus = noResubmission then some m
  else if lastStatus = conf.stageOutFailed then
    if ans.jwOutput.status = .good then
      match m.container.positionByEdgId edgId with
      | none => none
      | some position =>
          let m := m.setContext position
          let m :=
            if ans.jwOutput.sc ≠ [] ∧ ans.jwOutput.sc ≠ "NoToken".toList then
              m.send [.log (.reallyRun ans.jwOutput.sc)]
            else m
          let m := m.send [.log (.terminated ans.jwOutput.retcode)]
          let m := m.updatePointer position ans.sequenceCode ulogJobTerminated
            undefinedStatus
          some (m.send [.unregister edgId])
    else enqueue ans edgId sequenceCode ans.jwOutput.sc m
  else enqueue ans edgId sequenceCode [] m

/-- `EventSubmit` -/
def processSubmit (ans : Answers) (condor notes : Text) (m : MonitorData) :
    MonitorData :=
  match matchNotes notes with
  | none => m
  | some (edgId, sequenceCode, islast) =>
      let m := { m with
        sizefile := (m.sizefile.setLast islast).incrementPending }
      let (error, container) := m.container.insert edgId condor sequenceCode
      if error then m
      else
        let m := { m with container := container }
        match m.container.positionByEdgId edgId with
        | none => m
        | some position =>
            let m := m.setContext position
            let m := m.send [.log (.condorSubmit condor)]
            m.updatePointer position ans.sequenceCode ulogSubmit
              undefinedStatus

/-- `EventExecute` -/
def processExecute (ans : Answers) (condor executeHost : Text)
    (m : MonitorData) : MonitorData :=
  match m.container.positionByCondorId condor with
  | none => m
  | some position =>
      let m := (m.setContext position).send [.log (.execute executeHost)]
      m.updatePointer position ans.sequenceCode ulogExecute undefinedStatus

/-- `EventGlobusSubmit` -/
def processGlobusSubmit (ans : Answers) (condor rmContact : Text)
    (m : MonitorData) : MonitorData :=
  match m.container.positionByCondorId condor with
  | none => m
  | some position =>
      let m := (m.setContext position).send [.log (.globusSubmit rmContact)]
      m.updatePointer position ans.sequenceCode ulogGlobusSubmit undefinedStatus

/-- `EventGlobusSubmitFailed` -/
def processGlobusSubmitFailed (ans : Answers) (event : ULogEvent)
    (reason : Text) (m : MonitorData) : MonitorData :=
  match m.container.positionByCondorId event.condor with
  | none => m
  | some position =>
      let m := m.abortedInsert event.condor
      let m := (m.setContext position).send
        [.log (.globusSubmitFailed reason), .cancel event.cluster]
      m.updatePointer position ans.sequenceCode ulogGlobusSubmitFailed
        undefinedStatus

/-- `EventGlobusResourceDown` -/
def processGlobusResourceDown (conf : Conf) (ans : Answers)
    (event : ULogEvent) (m : MonitorData) : MonitorData :=
  m.startTimer (ans.now + conf.globusDownTimeout)
    (.globusSubmitFailed event.cluster)

/-- `EventJobHeld` -/
def processJobHeld (conf : Conf) (ans : Answers) (event : ULogEvent)
    (reason : Text) (reasonSubCode : ℤ) (m : MonitorData) : MonitorData :=
  match m.container.positionByCondorId event.condor with
  | none => m
  | some position =>
      let m := (m.setContext position).send [.log (.jobHeld reason)]
      if m.aborted.contains event.condor then m
      else if position.lastStatus = conf.jobCancelFailed then m
      else if reasonSubCode = conf.jobCancelFailed then
        (m.send [.cancel event.cluster]).updatePointer position
          ans.sequenceCode ulogJobHeld reasonSubCode
      else
        let m := m.abortedInsert event.condor
        let m := (m.setContext position).send
          [.log (.jobHeld reason), .cancel event.cluster]
        m.updatePointer position ans.sequenceCode ulogJobHeld reasonSubCode

/-- The retries are used up, or one more is to come. -/
def processCannotCancel (conf : Conf) (ans : Answers) (event : ULogEvent)
    (position : PointerId) (m : MonitorData) : MonitorData :=
  if position.retryCount > conf.forceCancellationRetries then
    let m := (m.setContext position).send
      [.log (.abortOnError "Removal retries exceeded.".toList),
        .unregister position.edgId, .purgeNone]
    let m := (m.remove position).abortedRemove event.condor
    m.removeAllTimeouts event.cluster
  else
    (m.incrementRetryCount position).startTimer
      (ans.now + conf.abortedJobsTimeout) (.retryRemove event.cluster)

/-- `EventGeneric::finalProcess` -/
def processGenericCode (conf : Conf) (ans : Answers) (event : ULogEvent)
    (code : ℕ) (m : MonitorData) : MonitorData :=
  match m.container.positionByCondorId event.condor with
  | none => m
  | some position =>
      match code with
      | 1 =>
          m.startTimer (ans.now + conf.abortedJobsTimeout)
            (.retryRemove event.cluster)
      | 2 => (m.incrementRetryCount position).send [.cancel event.cluster]
      | 3 => processCannotCancel conf ans event position m
      | 4 =>
          m.updatePointer position position.sequenceCode ulogGeneric
            noResubmission
      | _ => m

/-- `EventGeneric` -/
def processGeneric (conf : Conf) (ans : Answers) (event : ULogEvent)
    (info : Text) (m : MonitorData) : Option MonitorData :=
  match matchGeneric info with
  | none => some m
  | some code =>
      match lexicalInt code with
      | none => none
      | some cn => some (processGenericCode conf ans event cn m)

/-- `EventTerminated::processNormalJob` -/
def processNormalJob (conf : Conf) (ans : Answers) (event : ULogEvent)
    (position : PointerId) (m : MonitorData) : Option MonitorData :=
  let m := m.removeAllTimeouts event.cluster
  let m := { m with sizefile := m.sizefile.decrementPending }
  let m := m.setContext position
  let out := ans.jwOutput
  let m :=
    if out.sc ≠ [] ∧ out.sc ≠ "NoToken".toList then
      m.send [.log (.reallyRun out.sc)]
    else m
  if out.status = .good then
    let m := m.send [.log (.terminated out.retcode)]
    let m := m.updatePointer position ans.sequenceCode ulogJobTerminated
      undefinedStatus
    some (m.send [.unregister position.edgId, .purge position.edgId false])
  else
    let m := m.send
      [.log (.failedOnError (out.errors ++ '\n' :: out.doneReason))]
    let m :=
      match out.status with
      | .resubmit =>
          resubmit conf ans undefinedStatus position.edgId
            position.sequenceCode (m.send [.purge position.edgId false])
      | .abort =>
          some (m.send [.log (.abortOnError jobWrapFail),
            .unregister position.edgId, .purge position.edgId true])
      | _ => some m
    m.map fun m =>
      m.updatePointer position ans.sequenceCode ulogJobTerminated
        undefinedStatus

/-- `EventTerminated` -/
def processTerminated (conf : Conf) (ans : Answers) (event : ULogEvent)
    (m : MonitorData) : Option MonitorData :=
  match m.container.positionByCondorId event.condor with
  | none => some m
  | some position =>
      (processNormalJob conf ans event position m).map fun m => m.remove position

/-- `EventAborted`, whose `removeTimer` is always set. -/
def processAborted (conf : Conf) (ans : Answers) (event : ULogEvent)
    (reason : Text) (m : MonitorData) : Option MonitorData :=
  match m.container.positionByCondorId event.condor with
  | none => some m
  | some position =>
      let m := m.removeAllTimeouts event.cluster
      let m := { m with sizefile := m.sizefile.decrementPending }
      let m := m.setContext position
      if m.aborted.contains event.condor ||
          "The job attribute PeriodicRemove expression".toList.isPrefixOf
            reason then
        let m := (m.abortedRemove event.condor).send
          [.log (.abortedBySystem jobError), .purge position.edgId false]
        (resubmit conf ans position.lastStatus position.edgId
          position.sequenceCode m).map fun m => m.remove position
      else
        let m := m.send [.log .abortedByUser, .unregister position.edgId,
          .purge position.edgId true]
        some (m.remove position)

/-- `create_processor` and `process_event`. -/
def processEvent (conf : Conf) (ans : Answers) (event : ULogEvent)
    (m : MonitorData) : Option MonitorData :=
  match event.kind with
  | .submit notes => some (processSubmit ans event.condor notes m)
  | .execute host => some (processExecute ans event.condor host m)
  | .globusSubmit rmContact =>
      some (processGlobusSubmit ans event.condor rmContact m)
  | .globusSubmitFailed reason =>
      some (processGlobusSubmitFailed ans event reason m)
  | .globusResourceDown => some (processGlobusResourceDown conf ans event m)
  | .jobHeld reason sub => some (processJobHeld conf ans event reason sub m)
  | .generic info => processGeneric conf ans event info m
  | .jobTerminated => processTerminated conf ans event m
  | .jobAborted reason => processAborted conf ans event reason m

/-! ## The loop of the monitor -/

/-- `writeCurrentPosition` -/
def writeCurrentPosition (currpos : Offset) (m : MonitorData) :
    Option MonitorData :=
  if m.sizefile.good then
    let m := { m with sizefile := m.sizefile.update (.position currpos) }
    if m.sizefile.good then some m else none
  else none

/-- `checkAndProcessTimers`: the timeouts are removed when all of them have been
processed. Each event has its own answers. -/
def processTimers (conf : Conf) (ans : ℕ → Answers) :
    ℕ → Entries ℤ TimeoutEvent → MonitorData → Option MonitorData
  | _, [], m => some m
  | n, t :: rest, m =>
      (processEvent conf (ans n) t.2.toEvent m).bind
        (processTimers conf ans (n + 1) rest)

/-- `checkAndProcessTimers`: what the expired ones come back as is processed. -/
def checkAndProcessTimers (conf : Conf) (now : ℤ) (ans : ℕ → Answers)
    (m : MonitorData) : Option MonitorData :=
  let expired := m.timer.takeWhile fun t => t.1 ≤ now
  (processTimers conf ans 0 expired m).map fun m =>
    { m with timer := m.timer.drop expired.length }

/-- One round of `process_next_event`: an event that was read, with the position
behind it, or nothing new in the log. The position is written also where the
file has grown by less than an event. -/
inductive Step where
  | event (event : ULogEvent) (ans : Answers) (currpos : Offset)
  | timers (currpos : Option Offset) (now : ℤ) (ans : ℕ → Answers)

/-- `process_next_event`: an event of the log or a look at the timers. -/
def processNextEvent (conf : Conf) (m : MonitorData) :
    Step → Option MonitorData
  | .event event ans currpos =>
      (processEvent conf ans event m).bind (writeCurrentPosition currpos)
  | .timers none now ans => checkAndProcessTimers conf now ans m
  | .timers (some currpos) now ans =>
      (writeCurrentPosition currpos m).bind (checkAndProcessTimers conf now ans)

end Wms.Jobsubmission.LogMonitor
