import Wms.Lib.Lts
import Wms.Proofs.JobWrapperOutput
import Wms.Proofs.LogMonitor

/-!
# Which jobs are logged as done

Every handler of an event adds to what has been sent. That a job has ended with
an exit code is added by two of them, and only where the output of the wrapper was
taken for that of a good job with this code. So whatever the events of the log
are, and the timeouts in between, such an end has the word of a file behind it.
-/

namespace Wms.Jobsubmission.LogMonitor

open Wms.Lib

/-! ## What a handler adds -/

/-- The output of the wrapper bears out what is sent, if it is the end of a
job. -/
def BorneOut (A : Answers → Prop) (e : Sent) : Prop :=
  ∀ n, e = .log (.terminated n) →
    ∃ ans, A ans ∧ ans.jwOutput.status = .good ∧ ans.jwOutput.retcode = n

/-- What is added is borne out by the answers. -/
def Adds (A : Answers → Prop) (m m' : MonitorData) : Prop :=
  ∃ s, m'.sent = m.sent ++ s ∧ ∀ e ∈ s, BorneOut A e

def Sent.isEnd : Sent → Bool
  | .log (.terminated _) => true
  | _ => false

section
variable {A : Answers → Prop} {m m' m'' : MonitorData} {conf : Conf}
  {ans : Answers} {event : ULogEvent} {position : PointerId}

theorem Adds.trans (h : Adds A m m') (h' : Adds A m' m'') : Adds A m m'' := by
  obtain ⟨s, hs, hall⟩ := h
  obtain ⟨s', hs', hall'⟩ := h'
  refine ⟨s ++ s', ?_, ?_⟩
  · rw [hs', hs, List.append_assoc]
  · intro e he
    rcases List.mem_append.mp he with he | he
    · exact hall e he
    · exact hall' e he

theorem adds_of_same (h : m'.sent = m.sent) : Adds A m m' :=
  ⟨[], by rw [h, List.append_nil], fun _ he => absurd he List.not_mem_nil⟩

theorem Adds.refl : Adds A m m := adds_of_same rfl

/-- What is sent beside is not the end of a job. -/
theorem adds_send {s : List Sent} (h : s.all fun e => !e.isEnd) :
    Adds A m (m.send s) := by
  refine ⟨s, rfl, ?_⟩
  rw [List.all_eq_true] at h
  rintro e he n rfl
  cases h _ he

theorem adds_context : Adds A m (m.setContext position) := adds_send rfl

/-- The end of a job whose wrapper said so. -/
theorem adds_terminated (hA : A ans) (hgood : ans.jwOutput.status = .good) :
    Adds A m (m.send [.log (.terminated ans.jwOutput.retcode)]) := by
  refine ⟨_, rfl, ?_⟩
  rintro e he n rfl
  cases List.mem_singleton.mp he
  exact ⟨ans, hA, hgood, rfl⟩

theorem adds_reallyRun {sc : Text} :
    Adds A m (if sc ≠ [] ∧ sc ≠ "NoToken".toList then m.send [.log (.reallyRun sc)]
      else m) := by
  split
  · exact adds_send rfl
  · exact .refl

theorem adds_updatePointer {seq : Text} {status last : ℤ} :
    Adds A m (m.updatePointer position seq status last) := adds_of_same rfl

theorem adds_incrementRetryCount : Adds A m (m.incrementRetryCount position) :=
  adds_of_same rfl

theorem adds_removed : Adds A m (m.remove position) := adds_of_same rfl

theorem adds_abortedRemove {condor : Text} : Adds A m (m.abortedRemove condor) :=
  adds_of_same rfl

theorem adds_enqueue {edgId sequenceCode sc : Text}
    (h : enqueue ans edgId sequenceCode sc m = some m') : Adds A m m' := by
  rw [enqueue] at h
  split at h
  · rw [← Option.some.inj h]
    exact .trans (.trans adds_reallyRun (adds_send rfl)) (adds_send rfl)
  · cases h

theorem adds_resubmit {lastStatus : ℤ} {edgId sequenceCode : Text} (hA : A ans)
    (h : resubmit conf ans lastStatus edgId sequenceCode m = some m') :
    Adds A m m' := by
  rw [resubmit] at h
  split at h
  · rw [← Option.some.inj h]
    exact adds_send rfl
  split at h
  · rw [← Option.some.inj h]
    exact .refl
  split at h
  · split at h
    · next hgood =>
        split at h
        · cases h
        · rw [← Option.some.inj h]
          exact .trans (.trans (.trans (.trans adds_context adds_reallyRun)
            (adds_terminated hA hgood)) adds_updatePointer) (adds_send rfl)
    · exact adds_enqueue h
  · exact adds_enqueue h

/-! ## The handlers -/

theorem adds_submit {condor notes : Text} :
    Adds A m (processSubmit ans condor notes m) := by
  rw [processSubmit]
  split
  · exact .refl
  dsimp only
  split
  · exact adds_of_same rfl
  split
  · exact adds_of_same rfl
  · exact .trans (.trans (.trans (adds_of_same rfl) adds_context) (adds_send rfl))
      adds_updatePointer

theorem adds_execute {condor host : Text} :
    Adds A m (processExecute ans condor host m) := by
  rw [processExecute]
  split
  · exact .refl
  · exact .trans (.trans adds_context (adds_send rfl)) adds_updatePointer

theorem adds_globusSubmit {condor contact : Text} :
    Adds A m (processGlobusSubmit ans condor contact m) := by
  rw [processGlobusSubmit]
  split
  · exact .refl
  · exact .trans (.trans adds_context (adds_send rfl)) adds_updatePointer

theorem adds_globusSubmitFailed {reason : Text} :
    Adds A m (processGlobusSubmitFailed ans event reason m) := by
  rw [processGlobusSubmitFailed]
  split
  · exact .refl
  · exact .trans (.trans (.trans (adds_of_same rfl) adds_context) (adds_send rfl))
      adds_updatePointer

theorem adds_jobHeld {reason : Text} {sub : ℤ} :
    Adds A m (processJobHeld conf ans event reason sub m) := by
  have hlogged : ∀ p, Adds A m ((m.setContext p).send [.log (.jobHeld reason)]) :=
    fun p => .trans adds_context (adds_send rfl)
  rw [processJobHeld]
  split
  · exact .refl
  dsimp only
  split
  · exact hlogged _
  split
  · exact hlogged _
  split
  · exact .trans (.trans (hlogged _) (adds_send rfl)) adds_updatePointer
  · exact .trans (hlogged _) (.trans (.trans (.trans (adds_of_same rfl) adds_context)
      (adds_send rfl)) adds_updatePointer)

theorem adds_cannotCancel :
    Adds A m (processCannotCancel conf ans event position m) := by
  rw [processCannotCancel]
  split
  · have hlogged : Adds A m ((m.setContext position).send
        [.log (.abortOnError "Removal retries exceeded.".toList),
          .unregister position.edgId, .purgeNone]) :=
      .trans adds_context (adds_send rfl)
    exact hlogged.trans (adds_of_same rfl)
  · exact adds_of_same rfl

theorem adds_genericCode {code : ℕ} :
    Adds A m (processGenericCode conf ans event code m) := by
  rw [processGenericCode]
  split
  · exact .refl
  split
  · exact adds_of_same rfl
  · exact .trans adds_incrementRetryCount (adds_send rfl)
  · exact adds_cannotCancel
  · exact adds_updatePointer
  · exact .refl

theorem adds_generic {info : Text}
    (h : processGeneric conf ans event info m = some m') : Adds A m m' := by
  rw [processGeneric] at h
  split at h
  · rw [← Option.some.inj h]
    exact .refl
  split at h
  · cases h
  · rw [← Option.some.inj h]
    exact adds_genericCode

theorem adds_normalJob (hA : A ans)
    (h : processNormalJob conf ans event position m = some m') : Adds A m m' := by
  have hstart : Adds A m (((m.removeAllTimeouts event.cluster).decremented).setContext
      position) := .trans (adds_of_same rfl) adds_context
  rw [processNormalJob] at h
  split at h
  · next hgood =>
      rw [← Option.some.inj h]
      exact .trans (.trans (.trans (.trans hstart adds_reallyRun)
        (adds_terminated hA hgood)) adds_updatePointer) (adds_send rfl)
  · obtain ⟨m₁, hm₁, rfl⟩ := Option.map_eq_some_iff.mp h
    refine .trans ?_ adds_updatePointer
    split at hm₁
    · exact .trans (.trans (.trans (.trans hstart adds_reallyRun) (adds_send (by rfl)))
        (adds_send (by rfl))) (adds_resubmit hA hm₁)
    · rw [← Option.some.inj hm₁]
      exact .trans (.trans (.trans hstart adds_reallyRun) (adds_send (by rfl)))
        (adds_send rfl)
    · rw [← Option.some.inj hm₁]
      exact .trans (.trans hstart adds_reallyRun) (adds_send rfl)

theorem adds_terminatedEvent (hA : A ans)
    (h : processTerminated conf ans event m = some m') : Adds A m m' := by
  rw [processTerminated] at h
  split at h
  · rw [← Option.some.inj h]
    exact .refl
  · obtain ⟨m₁, hm₁, rfl⟩ := Option.map_eq_some_iff.mp h
    exact .trans (adds_normalJob hA hm₁) adds_removed

theorem adds_aborted {reason : Text} (hA : A ans)
    (h : processAborted conf ans event reason m = some m') : Adds A m m' := by
  rw [processAborted] at h
  split at h
  · rw [← Option.some.inj h]
    exact .refl
  next position _ =>
    have hstart : Adds A m (((m.removeAllTimeouts event.cluster).decremented).setContext
        position) := .trans (adds_of_same rfl) adds_context
    dsimp only at h
    split at h
    · obtain ⟨m₁, hm₁, rfl⟩ := Option.map_eq_some_iff.mp h
      exact .trans (.trans (.trans (.trans hstart adds_abortedRemove) (adds_send rfl))
        (adds_resubmit hA hm₁)) adds_removed
    · rw [← Option.some.inj h]
      exact .trans (.trans hstart (adds_send rfl)) adds_removed

theorem adds_event (hA : A ans) (h : processEvent conf ans event m = some m') :
    Adds A m m' := by
  rw [processEvent] at h
  split at h
  · rw [← Option.some.inj h]
    exact adds_submit
  · rw [← Option.some.inj h]
    exact adds_execute
  · rw [← Option.some.inj h]
    exact adds_globusSubmit
  · rw [← Option.some.inj h]
    exact adds_globusSubmitFailed
  · rw [← Option.some.inj h]
    exact adds_of_same rfl
  · rw [← Option.some.inj h]
    exact adds_jobHeld
  · exact adds_generic h
  · exact adds_terminatedEvent hA h
  · exact adds_aborted hA h

/-! ## The loop -/

theorem adds_timers {answers : ℕ → Answers} {n : ℕ} {ts : Entries ℤ TimeoutEvent}
    (hA : ∀ n, A (answers n)) (h : processTimers conf answers n ts m = some m') :
    Adds A m m' := by
  induction ts generalizing n m with
  | nil =>
      rw [processTimers] at h
      rw [← Option.some.inj h]
      exact .refl
  | cons t rest ih =>
      rw [processTimers] at h
      obtain ⟨m₁, hm₁, hrest⟩ := Option.bind_eq_some_iff.mp h
      exact (adds_event (hA n) hm₁).trans (ih hrest)

theorem adds_checkTimers {now : ℤ} {answers : ℕ → Answers} (hA : ∀ n, A (answers n))
    (h : checkAndProcessTimers conf now answers m = some m') : Adds A m m' := by
  rw [checkAndProcessTimers] at h
  obtain ⟨m₁, hm₁, rfl⟩ := Option.map_eq_some_iff.mp h
  exact (adds_timers hA hm₁).trans (adds_of_same rfl)

theorem adds_position {currpos : Offset}
    (h : writeCurrentPosition currpos m = some m') : Adds A m m' := by
  rw [writeCurrentPosition] at h
  split at h
  · dsimp only at h
    split at h
    · rw [← Option.some.inj h]
      exact adds_of_same rfl
    · cases h
  · cases h

/-- The answers of a step. -/
def Step.Asks (step : Step) (ans : Answers) : Prop :=
  match step with
  | .event _ given _ => ans = given
  | .timers _ _ given => ∃ n, ans = given n

theorem adds_step {step : Step} (h : processNextEvent conf m step = some m') :
    Adds step.Asks m m' := by
  cases step with
  | event event ans currpos =>
      rw [processNextEvent] at h
      obtain ⟨m₁, hm₁, hpos⟩ := Option.bind_eq_some_iff.mp h
      have hA : (Step.event event ans currpos).Asks ans := rfl
      exact (adds_event hA hm₁).trans (adds_position hpos)
  | timers currpos now answers =>
      have hA : ∀ n, (Step.timers currpos now answers).Asks (answers n) :=
        fun n => ⟨n, rfl⟩
      cases currpos with
      | none => exact adds_checkTimers hA h
      | some currpos =>
          rw [processNextEvent] at h
          obtain ⟨m₁, hm₁, hrest⟩ := Option.bind_eq_some_iff.mp h
          exact (adds_position hm₁).trans (adds_checkTimers hA hrest)

/-- Every step of a run adds something of its own. -/
theorem added_run {steps : List Step}
    (h : run (processNextEvent conf) m steps = some m') :
    ∃ added : List (Step × List Sent), added.map Prod.fst = steps ∧
      m'.sent = m.sent ++ added.flatMap Prod.snd ∧
      ∀ a ∈ added, ∀ e ∈ a.2, BorneOut a.1.Asks e := by
  induction steps generalizing m with
  | nil =>
      rw [← Option.some.inj h]
      exact ⟨[], rfl, (List.append_nil _).symm, fun _ ha => absurd ha List.not_mem_nil⟩
  | cons step steps ih =>
      rw [run] at h
      split at h
      · cases h
      · next m₁ hm₁ =>
          obtain ⟨s, hs, hborne⟩ := adds_step hm₁
          obtain ⟨added, rfl, hsent, hall⟩ := ih h
          refine ⟨(step, s) :: added, rfl, ?_, fun a ha => ?_⟩
          · rw [hsent, hs, List.flatMap_cons, List.append_assoc]
          · rcases List.mem_cons.mp ha with rfl | ha
            · exact hborne
            · exact hall a ha

end

/-! ## Whose word it is -/

/-- What the wrapper of a job has left: its standard output and the file it has
sent home. -/
structure Left where
  standardOutput : Option Text
  maradonaFile : Option Text

/-- The answer about a wrapper is what the parser makes of what it has left. -/
def Answers.Honest (useMaradonaFile : Bool) (ans : Answers) : Prop :=
  ∃ (strerror : Text) (left : Left), ans.jwOutput =
    JobWrapperOutputParser.parseFile strerror useMaradonaFile left.standardOutput
      left.maradonaFile

open JobWrapperOutputParser in
/-- An answer of the step is what the parser makes of files one of which decides,
speaks for the job and tells the code. -/
def Step.VouchesFor (useMaradonaFile : Bool) (step : Step) (n : ℤ) : Prop :=
  ∃ ans, step.Asks ans ∧ ∃ (strerror : Text) (left : Left),
    ans.jwOutput = parseFile strerror useMaradonaFile left.standardOutput
      left.maradonaFile ∧
    ∃ text before,
      deciding useMaradonaFile left.standardOutput left.maradonaFile =
          some (text, before) ∧
        Vouches text before ∧ exitCodeOf text = n

open JobWrapperOutputParser in
/-- In a run in which the answers are those of the parser, a step logs a job as done
with an exit code only if a file that it has read speaks for it and tells this
code. -/
theorem ends_vouched_for (useMaradonaFile : Bool) {conf : Conf} {m m' : MonitorData}
    {steps : List Step} (h : run (processNextEvent conf) m steps = some m')
    (hhonest : ∀ step ∈ steps, ∀ ans, step.Asks ans → ans.Honest useMaradonaFile) :
    ∃ added : List (Step × List Sent), added.map Prod.fst = steps ∧
      m'.sent = m.sent ++ added.flatMap Prod.snd ∧
      ∀ a ∈ added, ∀ n, Sent.log (.terminated n) ∈ a.2 →
        a.1.VouchesFor useMaradonaFile n := by
  obtain ⟨added, hsteps, hsent, hall⟩ := added_run h
  refine ⟨added, hsteps, hsent, fun a ha n hn => ?_⟩
  have hstep : a.1 ∈ steps := hsteps ▸ List.mem_map_of_mem ha
  obtain ⟨ans, hasks, hgood, hcode⟩ := hall a ha _ hn n rfl
  obtain ⟨strerror, left, hout⟩ := hhonest a.1 hstep ans hasks
  rw [hout] at hgood hcode
  obtain ⟨text, before, hdeciding, hvouches, hsame⟩ := vouched_of_good hgood
  exact ⟨ans, hasks, strerror, left, hout, text, before, hdeciding, hvouches,
    hsame.symm.trans hcode⟩

/-- A job whose standard output was lost, but for a greeting. -/
def greeted : Left where
  standardOutput := some "Hello\n".toList
  maradonaFile := some "Sequence code: UI=0:WM=1\njob exit status = 3\n".toList

def Answers.ofGreeted : Answers where
  now := 7
  sequenceCode := ['s']
  jwOutput := JobWrapperOutputParser.parseFile [] true greeted.standardOutput
    greeted.maradonaFile
  delivered := true

/-- The job is submitted, and ends. -/
def greetedSteps : List Step :=
  ([.submit "(job) (seq) (1)".toList, .jobTerminated] : List Kind).map fun kind =>
    .event ⟨1, 0, kind⟩ .ofGreeted ⟨0, zero_lt_offsets⟩

theorem honest_greeted {step : Step} (hstep : step ∈ greetedSteps) {ans : Answers}
    (h : step.Asks ans) : ans.Honest true := by
  obtain ⟨kind, -, rfl⟩ := List.mem_map.mp hstep
  cases h
  exact ⟨[], greeted, rfl⟩

theorem ends_vouched_for_greeted :
    ∃ m', run (processNextEvent .noRetries) .unused greetedSteps = some m' ∧
      Sent.log (.terminated 3) ∈ m'.sent ∧
      ∃ added : List (Step × List Sent), added.map Prod.fst = greetedSteps ∧
        m'.sent = [] ++ added.flatMap Prod.snd ∧
        ∀ a ∈ added, ∀ n, Sent.log (.terminated n) ∈ a.2 → a.1.VouchesFor true n := by
  have hrun : (run (processNextEvent .noRetries) .unused greetedSteps).map
      (fun m => decide (Sent.log (.terminated 3) ∈ m.sent)) = some true := by
    decide +kernel
  obtain ⟨m', hm', hsent⟩ := Option.map_eq_some_iff.mp hrun
  exact ⟨m', hm', of_decide_eq_true hsent,
    ends_vouched_for true hm' fun _ hstep _ hasks => honest_greeted hstep hasks⟩

end Wms.Jobsubmission.LogMonitor
