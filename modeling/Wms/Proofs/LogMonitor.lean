import Wms.Jobsubmission.LogMonitor
import Wms.Lib.Lts

/-!
# The jobs of a log and their count

The size file counts the jobs of a log that are still known. What an event does
to the count and to the ids is read off its handler once: it adds a job, takes
one away, or leaves both as they are. Two handlers do the one without the
other.
-/

namespace Wms.Jobsubmission.LogMonitor

open Wms.Lib

/-! ## What the handlers leave alone -/

/-- The ids of the known jobs, of Condor and of the grid. -/
def IdContainer.ids (c : IdContainer) : List (Text × Text) :=
  c.pointers.map fun p => (p.condorId, p.edgId)

/-- The identifiers of the jobs that are remembered. -/
def MonitorData.ids (m : MonitorData) : List (Text × Text) := m.container.ids

theorem ids_modify {c : IdContainer} {edgId : Text} {f : PointerId → PointerId}
    {hf : ∀ p, (f p).condorId = p.condorId ∧ (f p).edgId = p.edgId} :
    (c.modify edgId f hf).ids = c.ids := by
  rw [IdContainer.ids, IdContainer.modify, List.map_map, IdContainer.ids]
  refine List.map_congr_left fun p _ => ?_
  rw [Function.comp_apply]
  split
  · rw [(hf p).1, (hf p).2]
  · rfl

theorem ids_updatePointer {c : IdContainer} {position : PointerId} {seq : Text}
    {status last : ℤ} :
    (c.updatePointer position seq status last).ids = c.ids := by
  rw [IdContainer.updatePointer]
  exact ids_modify

theorem ids_incrementRetryCount {c : IdContainer} {position : PointerId} :
    (c.incrementPointerRetryCount position).ids = c.ids := by
  rw [IdContainer.incrementPointerRetryCount]
  exact ids_modify

theorem ids_remove {c : IdContainer} {edgId : Text} :
    (c.removeByEdgId edgId).ids = c.ids.filter fun e => e.2 ≠ edgId := by
  rw [IdContainer.ids, IdContainer.ids, IdContainer.removeByEdgId,
    List.filter_map]
  rfl

theorem ids_insert {c : IdContainer} {edgId condorId sequenceCode : Text} :
    (c.insert edgId condorId sequenceCode).1 = c.taken edgId condorId ∧
      (c.insert edgId condorId sequenceCode).2.ids =
        if c.taken edgId condorId then c.ids else c.ids ++ [(condorId, edgId)] := by
  rw [IdContainer.insert]
  split
  · rename_i h
    rw [h]
    exact ⟨rfl, rfl⟩
  · rename_i h
    rw [Bool.eq_false_iff.mpr h]
    refine ⟨rfl, ?_⟩
    simp [IdContainer.ids]

/-- Neither the count nor the ids change. -/
structure Quiet (m m' : MonitorData) : Prop where
  sizefile : m'.sizefile = m.sizefile
  ids : m'.ids = m.ids

section
variable {m m' m'' : MonitorData} {conf : Conf} {ans : Answers}
  {event : ULogEvent} {position : PointerId} {seq : Text} {status last : ℤ}

theorem Quiet.refl : Quiet m m := ⟨rfl, rfl⟩

theorem Quiet.trans (h : Quiet m m') (h' : Quiet m' m'') : Quiet m m'' :=
  ⟨h'.sizefile.trans h.sizefile, h'.ids.trans h.ids⟩

theorem quiet_send {s : List Sent} : Quiet m (m.send s) := ⟨rfl, rfl⟩

theorem quiet_context : Quiet m (m.setContext position) := ⟨rfl, rfl⟩

theorem quiet_startTimer {expire : ℤ} {e : TimeoutEvent} :
    Quiet m (m.startTimer expire e) := ⟨rfl, rfl⟩

theorem quiet_abortedInsert {condor : Text} :
    Quiet m (m.abortedInsert condor) := ⟨rfl, rfl⟩

theorem quiet_abortedRemove {condor : Text} :
    Quiet m (m.abortedRemove condor) := ⟨rfl, rfl⟩

theorem quiet_updatePointer :
    Quiet m (m.updatePointer position seq status last) :=
  ⟨rfl, ids_updatePointer⟩

theorem quiet_incrementRetryCount :
    Quiet m (m.incrementRetryCount position) := ⟨rfl, ids_incrementRetryCount⟩

theorem quiet_enqueue {edgId sequenceCode sc : Text}
    (h : enqueue ans edgId sequenceCode sc m = some m') : Quiet m m' := by
  rw [enqueue] at h
  split at h
  · rw [← Option.some.inj h]
    refine .trans (.trans ?_ quiet_send) quiet_send
    split
    · exact quiet_send
    · exact .refl
  · cases h

theorem quiet_resubmit {edgId sequenceCode : Text}
    (h : resubmit conf ans status edgId sequenceCode m = some m') :
    Quiet m m' := by
  rw [resubmit] at h
  split at h
  · rw [← Option.some.inj h]
    exact quiet_send
  split at h
  · rw [← Option.some.inj h]
    exact .refl
  split at h
  · split at h
    · split at h
      · cases h
      · rename_i position _
        rw [← Option.some.inj h]
        have hrun : Quiet (m.setContext position)
            (if ans.jwOutput.sc ≠ [] ∧ ans.jwOutput.sc ≠ "NoToken".toList then
              (m.setContext position).send [.log (.reallyRun ans.jwOutput.sc)]
            else m.setContext position) := by
          split
          · exact quiet_send
          · exact .refl
        exact .trans (.trans (.trans (.trans quiet_context hrun) quiet_send)
          quiet_updatePointer) quiet_send
    · exact quiet_enqueue h
  · exact quiet_enqueue h

theorem quiet_execute {condor host : Text} :
    Quiet m (processExecute ans condor host m) := by
  rw [processExecute]
  split
  · exact .refl
  · exact .trans (.trans quiet_context quiet_send) quiet_updatePointer

theorem quiet_globusSubmit {condor contact : Text} :
    Quiet m (processGlobusSubmit ans condor contact m) := by
  rw [processGlobusSubmit]
  split
  · exact .refl
  · exact .trans (.trans quiet_context quiet_send) quiet_updatePointer

theorem quiet_globusSubmitFailed {reason : Text} :
    Quiet m (processGlobusSubmitFailed ans event reason m) := by
  rw [processGlobusSubmitFailed]
  split
  · exact .refl
  · exact .trans (.trans (.trans quiet_abortedInsert quiet_context) quiet_send)
      quiet_updatePointer

theorem quiet_jobHeld {reason : Text} {sub : ℤ} :
    Quiet m (processJobHeld conf ans event reason sub m) := by
  have hlogged : ∀ p, Quiet m ((m.setContext p).send [.log (.jobHeld reason)]) :=
    fun p => .trans quiet_context quiet_send
  rw [processJobHeld]
  split
  · exact .refl
  dsimp only
  split
  · exact hlogged _
  split
  · exact hlogged _
  split
  · exact .trans (.trans (hlogged _) quiet_send) quiet_updatePointer
  · exact .trans (hlogged _) (.trans (.trans (.trans quiet_abortedInsert
      quiet_context) quiet_send) quiet_updatePointer)

/-! ## What an event does -/

/-- A job is added. -/
structure Added (m m' : MonitorData) (condor edgId : Text) (islast : Bool) :
    Prop where
  sizefile : m'.sizefile = (m.sizefile.setLast islast).incrementPending
  ids : m'.ids = m.ids ++ [(condor, edgId)]

/-- A job is counted that was not added. -/
structure Refused (m m' : MonitorData) (islast : Bool) : Prop where
  sizefile : m'.sizefile = (m.sizefile.setLast islast).incrementPending
  ids : m'.ids = m.ids

/-- A job is taken away and from the count. -/
structure Removed (m m' : MonitorData) (condor edgId : Text) : Prop where
  found : (condor, edgId) ∈ m.ids
  sizefile : m'.sizefile = m.sizefile.decrementPending
  ids : m'.ids = m.ids.filter fun e => e.2 ≠ edgId

/-- A job is taken away and still counted. -/
structure Dropped (m m' : MonitorData) (condor edgId : Text) : Prop where
  found : (condor, edgId) ∈ m.ids
  sizefile : m'.sizefile = m.sizefile
  ids : m'.ids = m.ids.filter fun e => e.2 ≠ edgId

theorem submit_cases {condor notes edgId sequenceCode : Text} {islast : Bool}
    (h : matchNotes notes = some (edgId, sequenceCode, islast)) :
    if m.container.taken edgId condor then
      Refused m (processSubmit ans condor notes m) islast
    else Added m (processSubmit ans condor notes m) condor edgId islast := by
  have hinsert := @ids_insert m.container edgId condor sequenceCode
  rw [processSubmit, h]
  dsimp only
  rw [hinsert.1]
  split
  · exact ⟨rfl, rfl⟩
  · rename_i htaken
    rw [if_neg htaken] at hinsert
    split
    · exact ⟨rfl, hinsert.2⟩
    · exact ⟨rfl, ids_updatePointer.trans hinsert.2⟩

theorem submit_foreign {condor notes : Text} (h : matchNotes notes = none) :
    processSubmit ans condor notes m = m := by
  rw [processSubmit, h]

theorem mem_ids (h : m.container.positionByCondorId event.condor =
    some position) : (event.condor, position.edgId) ∈ m.ids := by
  obtain ⟨hmem, heq⟩ := IdContainer.mem_of_position h
  rw [← heq]
  exact List.mem_map_of_mem hmem

theorem cannotCancel_cases
    (h : m.container.positionByCondorId event.condor = some position) :
    if position.retryCount > conf.forceCancellationRetries then
      Dropped m (processCannotCancel conf ans event position m) event.condor
        position.edgId
    else Quiet m (processCannotCancel conf ans event position m) := by
  rw [processCannotCancel]
  split
  · exact ⟨mem_ids h, rfl, ids_remove⟩
  · exact .trans quiet_incrementRetryCount quiet_startTimer

/-- The code of a generic event that says that a job cannot be cancelled. -/
def saysCannotCancel (info : Text) : Prop :=
  ∃ code, matchGeneric info = some code ∧ lexicalInt code = some 3

theorem generic_quiet {code : ℕ} (hcode : code ≠ 3) :
    Quiet m (processGenericCode conf ans event code m) := by
  rw [processGenericCode]
  split
  · exact .refl
  split
  · exact quiet_startTimer
  · exact .trans quiet_incrementRetryCount quiet_send
  · exact absurd rfl hcode
  · exact quiet_updatePointer
  · exact .refl

/-- The count of the pending jobs after one that is taken away. -/
def MonitorData.decremented (m : MonitorData) : MonitorData :=
  { m with sizefile := m.sizefile.decrementPending }

theorem normalJob_quiet
    (h : processNormalJob conf ans event position m = some m') :
    Quiet m.decremented m' := by
  have hstart : Quiet m.decremented
      (if ans.jwOutput.sc ≠ [] ∧ ans.jwOutput.sc ≠ "NoToken".toList then
        ((m.removeAllTimeouts event.cluster).decremented.setContext
          position).send [.log (.reallyRun ans.jwOutput.sc)]
      else (m.removeAllTimeouts event.cluster).decremented.setContext
        position) := by
    split
    · exact ⟨rfl, rfl⟩
    · exact ⟨rfl, rfl⟩
  rw [processNormalJob] at h
  split at h
  · rw [← Option.some.inj h]
    exact hstart.trans (.trans (.trans quiet_send quiet_updatePointer) quiet_send)
  · obtain ⟨m₁, hm₁, rfl⟩ := Option.map_eq_some_iff.mp h
    split at hm₁
    · exact hstart.trans (.trans quiet_send (.trans (.trans quiet_send
        (quiet_resubmit hm₁)) quiet_updatePointer))
    · rw [← Option.some.inj hm₁]
      exact hstart.trans (.trans quiet_send (.trans quiet_send
        quiet_updatePointer))
    · rw [← Option.some.inj hm₁]
      exact hstart.trans (.trans quiet_send quiet_updatePointer)

theorem removed_of_quiet
    (hfound : m.container.positionByCondorId event.condor = some position)
    (hq : Quiet m.decremented m') :
    Removed m (m'.remove position) event.condor position.edgId where
  found := mem_ids hfound
  sizefile := hq.sizefile
  ids := ids_remove.trans (congrArg (List.filter _) hq.ids)

theorem terminated_cases (h : processTerminated conf ans event m = some m') :
    m' = m ∨ ∃ edgId, Removed m m' event.condor edgId := by
  rw [processTerminated] at h
  split at h
  · exact .inl (Option.some.inj h).symm
  · rename_i position hfound
    obtain ⟨m₁, hm₁, rfl⟩ := Option.map_eq_some_iff.mp h
    exact .inr ⟨_, removed_of_quiet hfound (normalJob_quiet hm₁)⟩

theorem aborted_cases {reason : Text}
    (h : processAborted conf ans event reason m = some m') :
    m' = m ∨ ∃ edgId, Removed m m' event.condor edgId := by
  rw [processAborted] at h
  split at h
  · exact .inl (Option.some.inj h).symm
  · rename_i position hfound
    have hstart : Quiet m.decremented
        ((m.removeAllTimeouts event.cluster).decremented.setContext position) :=
      ⟨rfl, rfl⟩
    dsimp only at h
    split at h
    · obtain ⟨m₁, hm₁, rfl⟩ := Option.map_eq_some_iff.mp h
      exact .inr ⟨_, removed_of_quiet hfound (.trans (hstart.trans
        (.trans quiet_abortedRemove quiet_send)) (quiet_resubmit hm₁))⟩
    · rw [← Option.some.inj h]
      exact .inr ⟨_, removed_of_quiet hfound (hstart.trans quiet_send)⟩

/-- An event that changes neither the count nor the ids. -/
theorem generic_cases {info : Text}
    (h : processGeneric conf ans event info m = some m') :
    Quiet m m' ∨ saysCannotCancel info ∧
      ∃ position, m.container.positionByCondorId event.condor = some position ∧
        position.retryCount > conf.forceCancellationRetries ∧
        Dropped m m' event.condor position.edgId := by
  rw [processGeneric] at h
  split at h
  · rw [← Option.some.inj h]
    exact .inl .refl
  rename_i code hcode
  split at h
  · cases h
  rename_i cn hcn
  rw [← Option.some.inj h]
  by_cases hthree : cn = 3
  · rw [hthree] at hcn ⊢
    rw [processGenericCode]
    split
    · exact .inl .refl
    · rename_i position hfound
      have hcases := @cannotCancel_cases m conf ans event position hfound
      split at hcases
      · exact .inr ⟨⟨code, hcode, hcn⟩, position, hfound, ‹_›, hcases⟩
      · exact .inl hcases
  · exact .inl (generic_quiet hthree)

theorem generic_drops {info : Text} (hcannot : saysCannotCancel info)
    (hfound : m.container.positionByCondorId event.condor = some position)
    (hretry : position.retryCount > conf.forceCancellationRetries)
    (h : processGeneric conf ans event info m = some m') :
    Dropped m m' event.condor position.edgId := by
  obtain ⟨code, hcode, hcn⟩ := hcannot
  simp only [processGeneric, hcode, hcn] at h
  rw [← Option.some.inj h]
  simp only [processGenericCode, hfound]
  have hcases := @cannotCancel_cases m conf ans event position hfound
  rw [if_pos hretry] at hcases
  exact hcases

theorem quiet_timeout {t : TimeoutEvent}
    (h : processEvent conf ans t.toEvent m = some m') : Quiet m m' := by
  cases t with
  | retryRemove cluster =>
      have hinfo : matchGeneric "LM: 2 - Must retry job removal".toList =
          some ['2'] := by decide
      have hcode : lexicalInt ['2'] = some 2 := by decide
      rw [processEvent, TimeoutEvent.toEvent] at h
      simp only [processGeneric, hinfo, hcode] at h
      rw [← Option.some.inj h]
      exact generic_quiet (by decide)
  | globusSubmitFailed cluster =>
      rw [processEvent, TimeoutEvent.toEvent] at h
      rw [← Option.some.inj h]
      exact quiet_globusSubmitFailed

theorem quiet_timers {answers : ℕ → Answers} {n : ℕ}
    {ts : Entries ℤ TimeoutEvent}
    (h : processTimers conf answers n ts m = some m') : Quiet m m' := by
  induction ts generalizing n m with
  | nil =>
      rw [processTimers] at h
      rw [← Option.some.inj h]
      exact .refl
  | cons t rest ih =>
      rw [processTimers] at h
      obtain ⟨m₁, hm₁, hrest⟩ := Option.bind_eq_some_iff.mp h
      exact (quiet_timeout hm₁).trans (ih hrest)

theorem quiet_checkTimers {now : ℤ} {answers : ℕ → Answers}
    (h : checkAndProcessTimers conf now answers m = some m') : Quiet m m' := by
  rw [checkAndProcessTimers] at h
  obtain ⟨m₁, hm₁, rfl⟩ := Option.map_eq_some_iff.mp h
  exact (quiet_timers hm₁).trans ⟨rfl, rfl⟩

end

/-! ## The log and its jobs -/

/-- The monitor with the jobs that were submitted through its log. -/
structure Watched where
  data : MonitorData
  submitted : List Text

/-- The job that an event submits. -/
def Step.submitted : Step → List Text
  | .event e _ _ =>
      match e.kind with
      | .submit notes =>
          if (matchNotes notes).isSome then [e.condor] else []
      | _ => []
  | .timers .. => []

/-- A step of the monitor, and what it says of its jobs. -/
def Watched.next (conf : Conf) (w : Watched) (step : Step) : Option Watched :=
  (processNextEvent conf w.data step).map fun m =>
    ⟨m, w.submitted ++ step.submitted⟩

/-- How many of them are still known. -/
def Watched.live (w : Watched) : ℕ :=
  (w.data.ids.filter fun e => e.1 ∈ w.submitted).length

/-- The size file counts the jobs of the log that are still known. -/
def Accounted (w : Watched) : Prop :=
  w.data.sizefile.current.pending = w.live

/-- Without jobs that are known the log is complete behind its last one. -/
def Completes (w : Watched) : Prop :=
  w.live = 0 → w.data.sizefile.current.last = true →
    w.data.sizefile.completed = true

/-- A log with what is in its file, and a monitor that knows no job of it. -/
structure Log where
  start : MonitorData
  steps : List Step
  good : start.sizefile.good = true
  stash : start.sizefile.stashPos.isSome
  pending : start.sizefile.current.pending = 0
  unmapped : ∀ event ans currpos, .event event ans currpos ∈ steps →
    ∀ edgId, (event.condor, edgId) ∉ start.ids

/-- The monitor at the beginning of a log. -/
def Log.watched (log : Log) : Watched := ⟨log.start, []⟩

/-- A job is submitted of which neither id is known, and the counter does not
wrap; and a job that cannot be cancelled has retries left. -/
def Counted (conf : Conf) (w : Watched) : Step → Prop
  | .event event _ _ =>
      match event.kind with
      | .submit notes => ∀ edgId seq islast,
          matchNotes notes = some (edgId, seq, islast) →
          w.data.container.taken edgId event.condor = false ∧
            w.live + 1 < 2 ^ 32
      | .generic info => saysCannotCancel info →
          ∀ p, w.data.container.positionByCondorId event.condor = some p →
            p.retryCount ≤ conf.forceCancellationRetries
      | _ => True
  | .timers .. => True

/-- A size file that is in use. -/
structure Sane (sf : SizeFile) : Prop where
  good : sf.good = true
  stash : sf.stashPos.isSome
  small : sf.current.pending < 2 ^ 32

section
variable {sf : SizeFile} {m m' : MonitorData} {w w' : Watched} {conf : Conf}
  {C : Text → Prop} {condor edgId : Text} {islast : Bool}

theorem sane_submit (h : Sane sf) :
    Sane (sf.setLast islast).incrementPending ∧
      (sf.setLast islast).incrementPending.current.pending =
        (sf.current.pending + 1) % 2 ^ 32 := by
  rw [SizeFile.setLast, if_pos h.good, SizeFile.incrementPending, if_pos h.good]
  exact ⟨⟨h.good, h.stash, Nat.mod_lt _ (by decide)⟩, rfl⟩

theorem sane_decrement (h : Sane sf) :
    Sane sf.decrementPending ∧
      sf.decrementPending.current.pending = sf.current.pending - 1 := by
  rw [SizeFile.decrementPending, if_pos h.good]
  exact ⟨⟨h.good, h.stash, Nat.lt_of_le_of_lt (Nat.sub_le _ _) h.small⟩, rfl⟩

theorem sane_position {currpos : Offset} (h : Sane m.sizefile)
    (hw : writeCurrentPosition currpos m = some m') :
    Sane m'.sizefile ∧
      m'.sizefile.current.pending = m.sizefile.current.pending ∧
      m'.ids = m.ids ∧ m'.container = m.container := by
  have hreopen : m.sizefile.reopenFile.good = true := h.stash
  obtain ⟨pos, hpos⟩ := Option.isSome_iff_exists.mp h.stash
  have hupdate : (m.sizefile.update (.position currpos)) =
      { m.sizefile with
        good := true
        current := { m.sizefile.current with position := currpos.1 }
        file := writeAt m.sizefile.file pos
          { m.sizefile.current with position := currpos.1 : SizeField }.line
        stashPos := some (pos +
          { m.sizefile.current with position := currpos.1 : SizeField
            }.line.length) } := by
    rw [SizeFile.update, if_pos hreopen, SizeFile.reopenFile, SizeFile.dumpField]
    simp only [hpos]
    rfl
  rw [writeCurrentPosition, if_pos h.good] at hw
  dsimp only at hw
  rw [hupdate, if_pos rfl] at hw
  rw [← Option.some.inj hw]
  exact ⟨⟨rfl, rfl, h.small⟩, rfl, rfl, rfl⟩

/-! ## The number of the jobs -/

theorem live_removed {l : List (Text × Text)} {P : Text × Text → Bool}
    (hnodup : (l.map Prod.snd).Nodup) (hmem : (condor, edgId) ∈ l)
    (hP : P (condor, edgId) = true) :
    ((l.filter fun e => e.2 ≠ edgId).filter P).length + 1 =
      (l.filter P).length := by
  induction l with
  | nil => cases hmem
  | cons q rest ih =>
      rw [List.map_cons, List.nodup_cons] at hnodup
      rcases List.mem_cons.mp hmem with rfl | hmem
      · have hrest : rest.filter (fun e => e.2 ≠ edgId) = rest := by
          refine List.filter_eq_self.mpr fun e he => decide_eq_true fun heq => ?_
          exact hnodup.1 (List.mem_map.mpr ⟨e, he, heq⟩)
        have hhead : ((condor, edgId) :: rest).filter (fun e => e.2 ≠ edgId) =
            rest := by
          rw [List.filter_cons_of_neg (by simp)]
          exact hrest
        rw [hhead, List.filter_cons_of_pos hP, List.length_cons]
      · have hne : q.2 ≠ edgId := fun heq =>
          hnodup.1 (List.mem_map.mpr ⟨_, hmem, heq.symm⟩)
        have hhead : (q :: rest).filter (fun e => e.2 ≠ edgId) =
            q :: rest.filter fun e => e.2 ≠ edgId :=
          List.filter_cons_of_pos (decide_eq_true hne)
        rw [hhead, List.filter_cons, List.filter_cons]
        split
        · rw [List.length_cons, List.length_cons, ih hnodup.2 hmem]
        · exact ih hnodup.2 hmem

theorem nodup_edgs : (m.ids.map Prod.snd).Nodup := by
  have hedgs := m.container.edgs
  rw [MonitorData.ids, IdContainer.ids, List.map_map]
  exact hedgs

/-- The known jobs of the log were submitted through it. -/
def Known (C : Text → Prop) (w : Watched) : Prop :=
  ∀ e ∈ w.data.ids, C e.1 → e.1 ∈ w.submitted

theorem live_added (hids : w'.data.ids = w.data.ids ++ [(condor, edgId)])
    (hsub : w'.submitted = w.submitted ++ [condor])
    (hnew : ∀ e ∈ w.data.ids, e.1 ≠ condor) : w'.live = w.live + 1 := by
  have hfilter : w.data.ids.filter (fun e => decide (e.1 ∈ w'.submitted)) =
      w.data.ids.filter fun e => decide (e.1 ∈ w.submitted) := by
    refine List.filter_congr fun e he => ?_
    rw [hsub]
    simp [hnew e he]
  rw [Watched.live, hids, List.filter_append, hfilter, List.length_append,
    Watched.live, hsub]
  simp

theorem live_refused (hknown : Known C w) (hC : C condor)
    (hids : w'.data.ids = w.data.ids)
    (hsub : w'.submitted = w.submitted ++ [condor]) : w'.live = w.live := by
  have hfilter : w.data.ids.filter (fun e => decide (e.1 ∈ w'.submitted)) =
      w.data.ids.filter fun e => decide (e.1 ∈ w.submitted) := by
    refine List.filter_congr fun e he => ?_
    rw [hsub]
    have hmem : e.1 = condor → e.1 ∈ w.submitted := fun heq =>
      hknown e he (heq ▸ hC)
    by_cases hin : e.1 ∈ w.submitted
    · simp [hin]
    · have hne : e.1 ≠ condor := fun heq => hin (hmem heq)
      simp [hin, hne]
  rw [Watched.live, hids, hfilter, Watched.live]

theorem live_less (hknown : Known C w) (hC : C condor)
    (hfound : (condor, edgId) ∈ w.data.ids)
    (hids : w'.data.ids = w.data.ids.filter fun e => e.2 ≠ edgId)
    (hsub : w'.submitted = w.submitted) : w'.live + 1 = w.live := by
  rw [Watched.live, hids, hsub]
  exact live_removed nodup_edgs hfound
    (decide_eq_true (hknown _ hfound hC))

/-! ## One round -/

theorem next_timers {currpos : Option Offset} {now : ℤ} {answers : ℕ → Answers}
    (hs : Sane w.data.sizefile)
    (hn : w.next conf (.timers currpos now answers) = some w') :
    Sane w'.data.sizefile ∧ w'.data.ids = w.data.ids ∧
      w'.submitted = w.submitted ∧
      w'.data.sizefile.current.pending = w.data.sizefile.current.pending := by
  rw [Watched.next] at hn
  obtain ⟨m, hm, rfl⟩ := Option.map_eq_some_iff.mp hn
  cases currpos with
  | none =>
      have hq := quiet_checkTimers hm
      refine ⟨?_, hq.ids, List.append_nil _, ?_⟩
      · rw [hq.sizefile]
        exact hs
      · rw [hq.sizefile]
  | some currpos =>
      rw [processNextEvent] at hm
      obtain ⟨m₁, hm₁, hchecked⟩ := Option.bind_eq_some_iff.mp hm
      obtain ⟨hs₁, hpending, hids, -⟩ := sane_position hs hm₁
      have hq := quiet_checkTimers hchecked
      refine ⟨?_, hq.ids.trans hids, List.append_nil _, ?_⟩
      · rw [hq.sizefile]
        exact hs₁
      · rw [hq.sizefile]
        exact hpending

/-- A round in which the state is the one after the event, but for the
position. -/
theorem next_event {event : ULogEvent} {ans : Answers} {currpos : Offset}
    (hn : w.next conf (.event event ans currpos) = some w') :
    ∃ m, processEvent conf ans event w.data = some m ∧
      w'.submitted = w.submitted ++ (Step.event event ans currpos).submitted ∧
      (Sane m.sizefile → Sane w'.data.sizefile ∧ w'.data.ids = m.ids ∧
        w'.data.sizefile.current.pending = m.sizefile.current.pending) := by
  rw [Watched.next] at hn
  obtain ⟨m', hm', rfl⟩ := Option.map_eq_some_iff.mp hn
  rw [processNextEvent] at hm'
  obtain ⟨m, hm, hposition⟩ := Option.bind_eq_some_iff.mp hm'
  refine ⟨m, hm, rfl, fun hs => ?_⟩
  obtain ⟨hs', hpending, hids, -⟩ := sane_position hs hposition
  exact ⟨hs', hids, hpending⟩

/-- What is known of every state of a run. -/
structure Sound (C : Text → Prop) (w : Watched) : Prop where
  sane : Sane w.data.sizefile
  known : Known C w

theorem known_of_subset (hknown : Known C w)
    (hids : ∀ e ∈ w'.data.ids, e ∈ w.data.ids)
    (hsub : ∀ c ∈ w.submitted, c ∈ w'.submitted) : Known C w' :=
  fun e he hC => hsub _ (hknown e (hids e he) hC)

theorem live_same (hids : w'.data.ids = w.data.ids)
    (hsub : w'.submitted = w.submitted) : w'.live = w.live := by
  rw [Watched.live, hids, hsub, Watched.live]

/-- An event that leaves the count and the ids. -/
theorem round_quiet (hs : Sound C w) (ha : Accounted w)
    (hsane : Sane w'.data.sizefile) (hids : w'.data.ids = w.data.ids)
    (hsub : w'.submitted = w.submitted)
    (hpending : w'.data.sizefile.current.pending =
      w.data.sizefile.current.pending) : Sound C w' ∧ Accounted w' := by
  refine ⟨⟨hsane, known_of_subset hs.known (fun e he => hids ▸ he)
    fun c hc => hsub ▸ hc⟩, ?_⟩
  rw [Accounted, hpending, live_same hids hsub]
  exact ha

theorem round_submit {m : MonitorData} {seq notes : Text} {ans : Answers}
    (hs : Sound C w) (ha : Accounted w)
    (hC : C condor) (hnotes : matchNotes notes = some (edgId, seq, islast))
    (hm : processSubmit ans condor notes w.data = m)
    (hsub : w'.submitted = w.submitted ++ [condor])
    (hw : Sane m.sizefile → Sane w'.data.sizefile ∧ w'.data.ids = m.ids ∧
      w'.data.sizefile.current.pending = m.sizefile.current.pending) :
    Sound C w' ∧ (Accounted w' ↔
      w.data.container.taken edgId condor = false ∧ w.live + 1 < 2 ^ 32) := by
  obtain ⟨hsane, hpending⟩ := @sane_submit w.data.sizefile islast hs.sane
  have hsmall := hs.sane.small
  rw [Accounted] at ha
  have hcases := @submit_cases w.data ans condor notes edgId seq islast hnotes
  rw [hm] at hcases
  split at hcases
  · rename_i htaken
    obtain ⟨hsane', hids, hpending'⟩ := hw (hcases.sizefile ▸ hsane)
    rw [hcases.sizefile, hpending] at hpending'
    rw [hcases.ids] at hids
    have hlive := live_refused hs.known hC hids hsub
    refine ⟨⟨hsane', known_of_subset hs.known (fun e he => hids ▸ he)
      fun c hc => hsub ▸ List.mem_append_left _ hc⟩, ?_⟩
    rw [Accounted, hpending', hlive, htaken]
    constructor
    · intro heq
      omega
    · intro h
      cases h.1
  · rename_i htaken
    have hfresh := IdContainer.fresh_of_not_taken (Bool.eq_false_iff.mpr htaken)
    obtain ⟨hsane', hids, hpending'⟩ := hw (hcases.sizefile ▸ hsane)
    rw [hcases.sizefile, hpending] at hpending'
    rw [hcases.ids] at hids
    have hnew : ∀ e ∈ w.data.ids, e.1 ≠ condor := by
      rintro e he rfl
      obtain ⟨p, hp, rfl⟩ := List.mem_map.mp he
      exact hfresh.1 (List.mem_map.mpr ⟨p, hp, rfl⟩)
    have hlive := live_added hids hsub hnew
    refine ⟨⟨hsane', fun e he hCe => ?_⟩, ?_⟩
    · rw [hids] at he
      rw [hsub]
      rcases List.mem_append.mp he with he | he
      · exact List.mem_append_left _ (hs.known e he hCe)
      · rw [List.mem_singleton.mp he]
        exact List.mem_append_right _ List.mem_cons_self
    · rw [Accounted, hpending', hlive, Bool.eq_false_iff.mpr htaken]
      constructor
      · intro heq
        exact ⟨rfl, by omega⟩
      · intro h
        rw [ha, Nat.mod_eq_of_lt h.2]

theorem round_removed {m : MonitorData} (hs : Sound C w) (ha : Accounted w)
    (hC : C condor) (hr : Removed w.data m condor edgId)
    (hsub : w'.submitted = w.submitted)
    (hw : Sane m.sizefile → Sane w'.data.sizefile ∧ w'.data.ids = m.ids ∧
      w'.data.sizefile.current.pending = m.sizefile.current.pending) :
    Sound C w' ∧ Accounted w' := by
  obtain ⟨hsane, hpending⟩ := sane_decrement hs.sane
  obtain ⟨hsane', hids, hpending'⟩ := hw (hr.sizefile ▸ hsane)
  rw [hr.sizefile, hpending] at hpending'
  rw [hr.ids] at hids
  have hlive := live_less hs.known hC hr.found hids hsub
  refine ⟨⟨hsane', known_of_subset hs.known (fun e he => ?_)
    fun c hc => hsub ▸ hc⟩, ?_⟩
  · rw [hids] at he
    exact List.mem_of_mem_filter he
  · rw [Accounted] at ha ⊢
    rw [hpending', ha]
    omega

theorem round_dropped {m : MonitorData} (hs : Sound C w) (ha : Accounted w)
    (hC : C condor) (hd : Dropped w.data m condor edgId)
    (hsub : w'.submitted = w.submitted)
    (hw : Sane m.sizefile → Sane w'.data.sizefile ∧ w'.data.ids = m.ids ∧
      w'.data.sizefile.current.pending = m.sizefile.current.pending) :
    Sound C w' ∧ ¬ Accounted w' := by
  obtain ⟨hsane', hids, hpending'⟩ := hw (hd.sizefile ▸ hs.sane)
  rw [hd.sizefile] at hpending'
  rw [hd.ids] at hids
  have hlive := live_less hs.known hC hd.found hids hsub
  refine ⟨⟨hsane', known_of_subset hs.known (fun e he => ?_)
    fun c hc => hsub ▸ hc⟩, ?_⟩
  · rw [hids] at he
    exact List.mem_of_mem_filter he
  · rw [Accounted] at ha ⊢
    rw [hpending', ha]
    omega

theorem round_of_quiet {event : ULogEvent} {ans : Answers} {currpos : Offset}
    {m : MonitorData} (hs : Sound C w) (ha : Accounted w)
    (hq : Quiet w.data m)
    (hsub : w'.submitted = w.submitted ++ (Step.event event ans currpos).submitted)
    (hnone : (Step.event event ans currpos).submitted = [])
    (hw : Sane m.sizefile → Sane w'.data.sizefile ∧ w'.data.ids = m.ids ∧
      w'.data.sizefile.current.pending = m.sizefile.current.pending) :
    Sound C w' ∧ Accounted w' := by
  obtain ⟨hsane, hids, hpending⟩ := hw (hq.sizefile ▸ hs.sane)
  rw [hnone, List.append_nil] at hsub
  refine round_quiet hs ha hsane (hids.trans hq.ids) hsub ?_
  rw [hpending, hq.sizefile]

theorem round {step : Step} (hs : Sound C w) (ha : Accounted w)
    (hC : ∀ event ans currpos, step = .event event ans currpos → C event.condor)
    (hn : w.next conf step = some w') :
    Sound C w' ∧ (Accounted w' ↔ Counted conf w step) := by
  cases step with
  | timers currpos now answers =>
      obtain ⟨hsane, hids, hsub, hpending⟩ := next_timers hs.sane hn
      obtain ⟨hs', ha'⟩ := round_quiet hs ha hsane hids hsub hpending
      exact ⟨hs', fun _ => trivial, fun _ => ha'⟩
  | event event ans currpos =>
      have hCe := hC event ans currpos rfl
      obtain ⟨m, hm, hsub, hw⟩ := next_event hn
      have hplain : Quiet w.data m →
          (Step.event event ans currpos).submitted = [] →
          Counted conf w (.event event ans currpos) →
          Sound C w' ∧ (Accounted w' ↔
            Counted conf w (.event event ans currpos)) := by
        intro hq hnone hcounted
        obtain ⟨hs', ha'⟩ := round_of_quiet hs ha hq hsub hnone hw
        exact ⟨hs', fun _ => hcounted, fun _ => ha'⟩
      have hremoved : (∃ edgId, Removed w.data m event.condor edgId) →
          (Step.event event ans currpos).submitted = [] →
          Counted conf w (.event event ans currpos) →
          Sound C w' ∧ (Accounted w' ↔
            Counted conf w (.event event ans currpos)) := by
        rintro ⟨edgId, hr⟩ hnone hcounted
        rw [hnone, List.append_nil] at hsub
        obtain ⟨hs', ha'⟩ := round_removed hs ha hCe hr hsub hw
        exact ⟨hs', fun _ => hcounted, fun _ => ha'⟩
      obtain ⟨cluster, proc, kind⟩ := event
      cases kind with
      | submit notes =>
          cases hnotes : matchNotes notes with
          | none =>
              have hnone : (Step.event ⟨cluster, proc, .submit notes⟩ ans
                  currpos).submitted = [] := by
                simp [Step.submitted, hnotes]
              refine hplain ?_ hnone ?_
              · rw [← Option.some.inj hm, submit_foreign hnotes]
                exact .refl
              · intro edgId seq islast h
                rw [hnotes] at h
                cases h
          | some found =>
              obtain ⟨edgId, seq, islast⟩ := found
              have hone : (Step.event ⟨cluster, proc, .submit notes⟩ ans
                  currpos).submitted =
                    [ULogEvent.condor ⟨cluster, proc, .submit notes⟩] := by
                simp [Step.submitted, hnotes]
              rw [hone] at hsub
              obtain ⟨hs', ha'⟩ := round_submit hs ha hCe hnotes
                (Option.some.inj hm) hsub hw
              refine ⟨hs', ha'.trans ⟨fun h edgId' seq' islast' heq => ?_,
                fun h => h edgId seq islast hnotes⟩⟩
              rw [hnotes] at heq
              cases heq
              exact h
      | execute host =>
          exact hplain (Option.some.inj hm ▸ quiet_execute) rfl trivial
      | globusSubmit contact =>
          exact hplain (Option.some.inj hm ▸ quiet_globusSubmit) rfl trivial
      | globusSubmitFailed reason =>
          exact hplain (Option.some.inj hm ▸ quiet_globusSubmitFailed) rfl
            trivial
      | globusResourceDown =>
          exact hplain (Option.some.inj hm ▸ quiet_startTimer) rfl trivial
      | jobHeld reason sub =>
          exact hplain (Option.some.inj hm ▸ quiet_jobHeld) rfl trivial
      | generic info =>
          rcases generic_cases hm with hq | ⟨hcannot, position, hfound, hretry, hd⟩
          · by_cases hcounted : Counted conf w
                (.event ⟨cluster, proc, .generic info⟩ ans currpos)
            · exact hplain hq rfl hcounted
            · -- the event would have dropped a job
              rw [Counted] at hcounted
              simp only [Classical.not_imp, Classical.not_forall] at hcounted
              obtain ⟨hcannot, p, hp, hretry⟩ := hcounted
              have hd := generic_drops hcannot hp (Int.not_le.mp hretry) hm
              rw [show (Step.event _ ans currpos).submitted = [] from rfl,
                List.append_nil] at hsub
              obtain ⟨hs', ha'⟩ := round_dropped hs ha hCe hd hsub hw
              refine ⟨hs', fun h => absurd h ha', fun h => ?_⟩
              exact absurd (h hcannot p hp) hretry
          · rw [show (Step.event _ ans currpos).submitted = [] from rfl,
              List.append_nil] at hsub
            obtain ⟨hs', ha'⟩ := round_dropped hs ha hCe hd hsub hw
            refine ⟨hs', fun h => absurd h ha', fun h => ?_⟩
            exact absurd (h hcannot position hfound) (Int.not_le.mpr hretry)
      | jobTerminated =>
          rcases terminated_cases hm with rfl | hr
          · exact hplain .refl rfl trivial
          · exact hremoved hr rfl trivial
      | jobAborted reason =>
          rcases aborted_cases hm with rfl | hr
          · exact hplain .refl rfl trivial
          · exact hremoved hr rfl trivial

theorem completes_of_accounted (hs : Sane w.data.sizefile) (ha : Accounted w) :
    Completes w := by
  intro hlive hlast
  rw [Accounted, hlive] at ha
  rw [SizeFile.completed, hs.good, hlast, ha]
  rfl

end

/-- Every state that a log leads to has its count exactly when every round of
the log does. -/
theorem accounted_iff (conf : Conf) (log : Log) :
    (∀ pre w, pre <+: log.steps →
      run (Watched.next conf) log.watched pre = some w →
      Accounted w ∧ Completes w) ↔
    Meets (Watched.next conf) (Counted conf) log.watched log.steps := by
  let C : Text → Prop := fun condor => ∃ event ans currpos,
    .event event ans currpos ∈ log.steps ∧ event.condor = condor
  have hstart : Sound C log.watched := by
    refine ⟨⟨log.good, log.stash, ?_⟩, ?_⟩
    · change log.start.sizefile.current.pending < _
      rw [log.pending]
      decide
    · rintro ⟨condor, edgId⟩ he ⟨event, ans, currpos, hmem, rfl⟩
      exact absurd he (log.unmapped event ans currpos hmem edgId)
  have hcount : Accounted log.watched := by
    have hlive : log.watched.live = 0 := by
      rw [Watched.live, List.length_eq_zero_iff]
      exact List.filter_eq_nil_iff.mpr fun e _ => by simp [Log.watched]
    rw [Accounted, hlive]
    exact log.pending
  have hstep : ∀ w step w', step ∈ log.steps → Sound C w →
      Accounted w ∧ Completes w → Watched.next conf w step = some w' →
      Sound C w' ∧ (Accounted w' ∧ Completes w' ↔ Counted conf w step) := by
    intro w step w' hmem hs ha hn
    obtain ⟨hs', hiff⟩ := round hs ha.1 (fun event ans currpos heq =>
      ⟨event, ans, currpos, heq ▸ hmem, rfl⟩) hn
    refine ⟨hs', fun h => hiff.mp h.1, fun h => ?_⟩
    exact ⟨hiff.mpr h, completes_of_accounted hs'.sane (hiff.mpr h)⟩
  exact prefixes_iff hstep hstart
    ⟨hcount, completes_of_accounted hstart.sane hcount⟩

/-! ## Logs that lose count -/

/-- No job is known yet. -/
def MonitorData.unused : MonitorData where
  sizefile := openFile .empty ['s'] true []
  container := ⟨[], List.nodup_nil, List.nodup_nil⟩
  aborted := []
  timer := []
  sent := []

def Conf.noRetries : Conf := ⟨60, 60, 0, 131, 155, 8⟩

def Answers.plain : Answers := ⟨7, ['s'], ⟨.good, 0, [], [], []⟩, true⟩

/-- A log of cluster 1: the last job of the log is submitted and cannot be
cancelled. -/
def uncancellable : Log where
  start := .unused
  steps := ([.submit "(job) (seq) (1)".toList,
    .generic "JC: 3 - Cannot cancel".toList,
    .generic "JC: 3 - Cannot cancel".toList] : List Kind).map fun kind =>
      .event ⟨1, 0, kind⟩ .plain ⟨0, zero_lt_offsets⟩
  good := rfl
  stash := rfl
  pending := rfl
  unmapped := fun _ _ _ _ _ h => by cases h

/-- A log of clusters 1 and 2, that were both submitted for one job. -/
def resubmitted : Log where
  start := .unused
  steps := [1, 2].map fun cluster =>
    .event ⟨cluster, 0, .submit "(job) (seq) (1)".toList⟩ .plain
      ⟨0, zero_lt_offsets⟩
  good := rfl
  stash := rfl
  pending := rfl
  unmapped := fun _ _ _ _ _ h => by cases h

/-- The one job is gone but still pending, and the log is never complete; or the
cluster that was not taken in is pending too. -/
theorem count_lost :
    (∃ w, run (Watched.next .noRetries) uncancellable.watched
        uncancellable.steps = some w ∧ ¬ Accounted w ∧ ¬ Completes w) ∧
    ∃ w, run (Watched.next .noRetries) resubmitted.watched
        resubmitted.steps = some w ∧ ¬ Accounted w := by
  have hfirst : (run (Watched.next .noRetries) uncancellable.watched
      uncancellable.steps).map (fun w => (w.live,
        w.data.sizefile.current.pending, w.data.sizefile.current.last,
        w.data.sizefile.completed)) = some (0, 1, true, false) := by
    decide +kernel
  have hsecond : (run (Watched.next .noRetries) resubmitted.watched
      resubmitted.steps).map (fun w => (w.live,
        w.data.sizefile.current.pending)) = some (1, 2) := by
    decide +kernel
  obtain ⟨w, hrun, hw⟩ := Option.map_eq_some_iff.mp hfirst
  obtain ⟨w', hrun', hw'⟩ := Option.map_eq_some_iff.mp hsecond
  simp only [Prod.mk.injEq] at hw hw'
  refine ⟨⟨w, hrun, fun ha => ?_, fun hcomplete => ?_⟩, w', hrun', fun ha => ?_⟩
  · rw [Accounted, hw.1, hw.2.1] at ha
    cases ha
  · have hdone := hcomplete hw.1 hw.2.2.1
    rw [hw.2.2.2] at hdone
    cases hdone
  · rw [Accounted, hw'.1, hw'.2] at ha
    cases ha

end Wms.Jobsubmission.LogMonitor
