import Wms.Ice.Restart
import Wms.Proofs.Submission

/-!
# A job that was started is not resubmitted

Until CREAM has started a job, nothing the command does can break the promise.
From the start to the update that writes `IDLE` the promise hangs on the
process: the entry still says `REGISTERED`, and a command that is run again
then takes the refusal of a second start for a failure. From the update on the
entry says that the request is done with.

So the promise is kept in every run in which ICE does not stop in that window
and no answer to a start gets lost.
-/

namespace Wms.Ice.Restart

open Wms.Lib Wms.Ice Proc

/-- Nothing of the request has been started. -/
structure Fresh (env : Env) : Prop where
  started : env.started = []
  resubmitted : env.resubmitted = 0

/-- What is promised of a job: once it was started it is not resubmitted, no
second CREAM job is started for it and its entry stays. -/
structure Kept (gid : Text) (env : Env) : Prop where
  resubmitted : env.resubmitted = 0
  single : env.started.length ≤ 1
  entry : env.started ≠ [] → (env.db.job? gid).isSome = true

/-- The entry of a job that was started tells so. -/
def Settled (gid : Text) (env : Env) : Prop :=
  env.started ≠ [] →
    ∃ row, env.db.job? gid = some row ∧
      row.status ≠ .unknown ∧ row.status ≠ .registered

/-- CREAM has carried the start out, and ICE sees an exception. -/
def isLost (env : Env) : (c : Call) → Answer c → Bool
  | .creamStart _ _ jobId, .raised what carriedOut =>
      isCarriedOut env jobId (.raised what carriedOut)
  | _, _ => false

/-- ICE stops only when the entry is settled, also by itself, and no answer to
a start that was carried out is lost. -/
def Safe (gid : Text) (s : State) : Label → Prop
  | .crash => Settled gid s.env
  | .finish =>
      match s.running with
      | some (.throw .abort) => Settled gid s.env
      | _ => True
  | .step ans =>
      match s.running with
      | some (.call c _) => isLost s.env c (ans c) = false
      | _ => True
  | _ => True

/-! ## What the calls do -/

theorem Fresh.kept {env : Env} (h : Fresh env) (gid : Text) : Kept gid env where
  resubmitted := h.resubmitted
  single := by simp [h.started]
  entry := fun hne => absurd h.started hne

theorem Fresh.settled {env : Env} (h : Fresh env) (gid : Text) :
    Settled gid env := fun hne => absurd h.started hne

/-- The database has no part in it. -/
theorem Fresh.withDb {env : Env} (h : Fresh env) (db : Db) :
    Fresh { env with db := db } := ⟨h.started, h.resubmitted⟩

/-- Only a start can start a job. -/
theorem started_world {env : Env} (h : env.started = []) {c : Call}
    (hc : ∀ url proxy jobId, c ≠ .creamStart url proxy jobId) (r : Answer c) :
    (world env c r).2.started = [] := by
  cases c with
  | creamStart url proxy jobId => exact absurd rfl (hc url proxy jobId)
  | noResubmit =>
      simp only [world]
      split
      · exact h
      · exact h
  | _ => exact h

theorem fresh_world {env : Env} (h : Fresh env) {c : Call}
    (hc : ∀ url proxy jobId, c ≠ .creamStart url proxy jobId) (r : Answer c) :
    Fresh (world env c r).2 := by
  cases c with
  | creamStart url proxy jobId => exact absurd rfl (hc url proxy jobId)
  | noResubmit =>
      have hempty : env.started.isEmpty = true := by simp [h.started]
      simp only [world, hempty, if_true]
      exact h
  | db op => exact h.withDb _
  | removeRequest => exact ⟨h.started, h.resubmitted⟩
  | _ => exact h

/-- A quiet call leaves an entry where it is. -/
theorem entry_world {env : Env} {job : JobRow} {c : Call} (hc : Quiet job c)
    (h : (env.db.job? job.gridJobid).isSome = true) (r : Answer c) :
    ((world env c r).2.db.job? job.gridJobid).isSome = true := by
  cases c with
  | creamStart url proxy jobId => exact hc.elim
  | db op => exact job?_run hc h
  | noResubmit =>
      simp only [world]
      split
      · exact h
      · exact h
  | _ => exact h

/-! ## The contract of the command -/

/-- No answer is lost, and a property of the state is owed after every call. -/
def contract (G : Env → Prop) : Contract Env Call Answer where
  world := world
  assume := fun env c r => isLost env c r = false
  guard := fun env c r => G (world env c r).2

/-- What is promised holds after every call. -/
abbrev promise (gid : Text) : Contract Env Call Answer := contract (Kept gid)

section

variable {G : Env → Prop} {α : Type} {Q : Env → α → Prop}
  {E : Env → Exception → Prop} {env : Env}

theorem wp_ask {c : Call} {f : Answer c → IceProc α}
    (h : ∀ r, isLost env c r = false → G (world env c r).2 ∧
      wp (contract G) Q E (world env c r).2 (f (world env c r).1)) :
    wp (contract G) Q E env ((ask c).bind f) := h

theorem wp_execDb {op : DbOp} {f : op.Result → IceProc α}
    (hG : G { env with db := (env.db.run op).2 })
    (h : wp (contract G) Q E { env with db := (env.db.run op).2 }
      (f (env.db.run op).1)) :
    wp (contract G) Q E env ((execDb op).bind f) := fun _ _ => ⟨hG, h⟩

end

section

variable {job : JobRow}

/-- As long as nothing is started, a quiet part keeps it so and leaves the
entry. -/
theorem wp_quiet {α : Type} {R : α → Prop} {env : Env} {p : IceProc α}
    (hp : Within (Quiet job) R p) (h : Fresh env) :
    wp (promise job.gridJobid) (fun env a => Fresh env ∧ R a)
      (fun env _ => Fresh env) env p := by
  refine wp_mono (fun _ _ h => h) (fun _ _ h => h.1)
    (wp_of_within (fun s c r hc hs _ => ?_) hp (throws_any p) h)
  have hfresh := fresh_world hs (ne_start_of_quiet hc) r
  exact ⟨hfresh.kept _, hfresh⟩

theorem wp_quiet_entry {α : Type} {R : α → Prop} {env : Env} {p : IceProc α}
    (hp : Within (Quiet job) R p)
    (h : Fresh env ∧ (env.db.job? job.gridJobid).isSome = true) :
    wp (promise job.gridJobid)
      (fun env a => (Fresh env ∧ (env.db.job? job.gridJobid).isSome = true) ∧
        R a)
      (fun env _ => Fresh env ∧ (env.db.job? job.gridJobid).isSome = true)
      env p := by
  refine wp_mono (fun _ _ h => h) (fun _ _ h => h.1)
    (wp_of_within (fun s c r hc hs _ => ?_) hp (throws_any p) h)
  have hfresh := fresh_world hs.1 (ne_start_of_quiet hc) r
  exact ⟨hfresh.kept _, hfresh, entry_world hc hs.2 r⟩

end

/-! ## From the start on -/

/-- The request is done with, whatever becomes of the rest of the command. -/
def Over (gid : Text) (env : Env) : Prop := Kept gid env ∧ Settled gid env

/-- A call of the end of the command: an update says that the job was
started, or says nothing of its status. -/
def Late (gid : Text) : Call → Prop
  | .log _ _ => True
  | .time => True
  | .db (.updateJob j _) =>
      j.gridJobid = gid ∧
        (j.changed .status = false ∨ j.status ≠ .unknown ∧ j.status ≠ .registered)
  | .removeRequest => True
  | _ => False

theorem settled_updateJob {db : Db} {j : CreamJob} {row : JobRow}
    (hrow : db.job? j.gridJobid = some row) (token : Text)
    (hstatus : j.changed .status = false ∧ row.status ≠ .unknown ∧
        row.status ≠ .registered ∨
      j.changed .status = true ∧ j.status ≠ .unknown ∧
        j.status ≠ .registered) :
    ∃ row', (db.updateJob j token).job? j.gridJobid = some row' ∧
      row'.status ≠ .unknown ∧ row'.status ≠ .registered := by
  refine ⟨j.written token row, ?_, ?_⟩
  · rw [Db.job?_updateJob, hrow]
    rfl
  · unfold CreamJob.written
    rcases hstatus with ⟨hflag, h⟩ | ⟨hflag, h⟩
    · simpa [hflag] using h
    · simpa [hflag] using h

theorem over_world {gid : Text} {env : Env} {c : Call} (hc : Late gid c)
    (h : Over gid env) (r : Answer c) : Over gid (world env c r).2 := by
  cases c with
  | log event row => exact h
  | time => exact h
  | removeRequest =>
      exact ⟨⟨h.1.resubmitted, h.1.single, h.1.entry⟩, h.2⟩
  | db op =>
      cases op with
      | updateJob j token =>
          obtain ⟨rfl, hstatus⟩ := hc
          have hsettled : Settled j.gridJobid
              (world env (.db (.updateJob j token)) r).2 := by
            intro hne
            obtain ⟨row, hrow, hst⟩ := h.2 hne
            refine settled_updateJob hrow token ?_
            cases hflag : j.changed .status with
            | false => exact Or.inl ⟨rfl, hst⟩
            | true =>
                rcases hstatus with hdown | hs
                · rw [hflag] at hdown
                  cases hdown
                · exact Or.inr ⟨rfl, hs⟩
          refine ⟨⟨h.1.resubmitted, h.1.single, fun hne => ?_⟩, hsettled⟩
          obtain ⟨row', hrow', -⟩ := hsettled hne
          rw [hrow']
          rfl
      | _ => exact hc.elim
  | _ => exact hc.elim

theorem wp_late {gid : Text} {α : Type} {R : α → Prop} {env : Env}
    {p : IceProc α} (hp : Within (Late gid) R p)
    (ht : Throws (· = .abort) p) (h : Over gid env) :
    wp (promise gid) (fun env a => Over gid env ∧ R a)
      (fun env e => Over gid env ∧ e = .abort) env p := by
  refine wp_of_within (fun s c r hc hs _ => ?_) hp ht h
  have hover := over_world hc hs r
  exact ⟨hover.1, hover⟩

/-! ## The command -/

section

variable {job : JobRow} (lib : Libraries) (cfg : Config)

/-- Nothing is started, or the request is done with. -/
def Outcome (job : JobRow) (env : Env) :
    CreamJob × Except Exception Unit → Prop
  | (_, .ok ()) => Over job.gridJobid env
  | (j, .error _) => Fresh env ∧ SameOwner job j.toJobRow

theorem Fresh.over {env : Env} (h : Fresh env) (gid : Text) : Over gid env :=
  ⟨h.kept gid, h.settled gid⟩

theorem not_caught_of_abort {e : Exception} (h : e = .abort) :
    ¬ e.isCaught = true := by
  rw [h]
  exact Bool.false_ne_true

/-- A start leaves the job to the handlers or is recorded. -/
theorem wp_startJob_of {G : Env → Prop}
    {Q : Env → CreamJob × Except Exception Unit → Prop}
    {E : Env → Exception → Prop} {env : Env} {j : CreamJob}
    {toStart : ToStart} (hstarted : env.started = []) (hG : G env)
    (hfailed : ∀ what, Q env (j, .error (.transient what)))
    (hG' : G { env with started := [toStart.jobId] })
    (hok : wp (contract G) Q E { env with started := [toStart.jobId] }
      (recordStart (startedJob cfg j toStart))) :
    wp (contract G) Q E env (startJob cfg j toStart) := by
  unfold startJob
  simp only [bind_eq, pure_eq]
  refine wp_execDb hG ?_
  rw [show (env.db.run (.insertStat .registered)).2 = env.db from rfl]
  refine wp_ask fun r hlost => ?_
  cases r with
  | raised what carriedOut =>
      have hnot : isCarriedOut env toStart.jobId (.raised what carriedOut) =
        false := hlost
      have hw : (world env (.creamStart toStart.creamUrl j.userProxyfile
          toStart.jobId) (.raised what carriedOut)) =
          (.raised what carriedOut, env) := by
        simp [world, answerStart, hnot]
      rw [hw]
      exact ⟨hG, hfailed _⟩
  | result res =>
      cases href : res.refused with
      | cons errMex rest =>
          have hw : (world env (.creamStart toStart.creamUrl j.userProxyfile
              toStart.jobId) (.result res)) = (.result res, env) := by
            simp [world, answerStart, isCarriedOut, hstarted, href]
          rw [hw]
          simp only [href]
          exact ⟨hG, hfailed _⟩
      | nil =>
          have hw : (world env (.creamStart toStart.creamUrl j.userProxyfile
              toStart.jobId) (.result res)) =
              (.result res, { env with started := [toStart.jobId] }) := by
            simp [world, answerStart, isCarriedOut, hstarted, href]
          rw [hw]
          simp only [href]
          exact ⟨hG', wp_execDb hG' hok⟩

/-- What is done once CREAM has started the job. -/
private theorem wp_recordStart {j : CreamJob} {env : Env}
    (hj : j.gridJobid = job.gridJobid)
    (hstatus : j.changed .status = true ∧ j.status = .idle)
    (hkept : Kept job.gridJobid env)
    (hentry : (env.db.job? job.gridJobid).isSome = true) :
    wp (promise job.gridJobid) (fun env r => Outcome job env r)
      (fun env e => e.isCaught = true → Fresh env) env (recordStart j) := by
  have hidle : j.changed .status = true ∧ j.status ≠ .unknown ∧
      j.status ≠ .registered := by
    rw [hstatus.2]
    exact ⟨hstatus.1, by simp, by simp⟩
  unfold recordStart
  simp only [bind_eq, pure_eq]
  cases htoken : j.writtenToken with
  | none =>
      simp only [updateJob, htoken]
      exact fun hcaught => absurd hcaught (not_caught_of_abort rfl)
  | some token =>
      have hover : Over job.gridJobid
          { env with db := env.db.updateJob j token } := by
        obtain ⟨row, hrow⟩ := Option.isSome_iff_exists.mp hentry
        rw [← hj] at hrow
        obtain ⟨row', hrow', hst⟩ :=
          settled_updateJob hrow token (Or.inr hidle)
        rw [hj] at hrow'
        refine ⟨⟨hkept.resubmitted, hkept.single, fun _ => ?_⟩,
          fun _ => ⟨row', hrow', hst⟩⟩
        show ((env.db.updateJob j token).job? job.gridJobid).isSome = true
        rw [hrow']
        rfl
      have hrest : Within (Late job.gridJobid)
          (fun r : CreamJob × Except Exception Unit => r.2 = .ok ())
          ((logEvent .creamTransferOk j.resetChangeFlags false true).bind
            fun j' => now.bind fun t =>
              (updateJob j).bind fun _ => ret (j'.setLastSeen t, .ok ())) := by
        refine within_bind (within_logEvent_of trivial fun code token =>
          ⟨hj, Or.inl rfl⟩) fun j' _ => ?_
        refine within_bind (Q := fun _ => True)
          ⟨trivial, fun _ => trivial⟩ fun t _ => ?_
        exact within_bind (within_updateJob_of fun token =>
          ⟨hj, Or.inr hidle.2⟩) fun _ _ => rfl
      have hthrows : Throws (· = .abort)
          ((logEvent .creamTransferOk j.resetChangeFlags false true).bind
            fun j' => now.bind fun t => (updateJob j).bind fun _ =>
              (ret (j'.setLastSeen t, .ok ()) :
                IceProc (CreamJob × Except Exception Unit))) :=
        throws_bind (throws_logEvent _ _ _ _) fun _ =>
          throws_bind (throws_perform _) fun _ =>
            throws_bind (throws_updateJob _) fun _ => trivial
      have hfirst : updateJob j = execDb (.updateJob j token) := by
        simp only [updateJob, htoken]
      rw [hfirst] at hrest hthrows ⊢
      refine wp_execDb hover.1 ?_
      refine wp_mono ?_ ?_ (wp_late hrest hthrows hover)
      · rintro env' ⟨j', outcome⟩ ⟨ho, hok⟩
        rw [show outcome = .ok () from hok]
        exact ho
      · exact fun _ _ h hcaught => absurd hcaught (not_caught_of_abort h.2)

theorem wp_startJob {j : CreamJob} {env : Env}
    (hj : SameOwner job j.toJobRow)
    (h : Fresh env ∧ (env.db.job? job.gridJobid).isSome = true)
    (toStart : ToStart) :
    wp (promise job.gridJobid) (fun env r => Outcome job env r)
      (fun env e => e.isCaught = true → Fresh env) env
      (startJob cfg j toStart) := by
  have hkept : Kept job.gridJobid { env with started := [toStart.jobId] } :=
    ⟨h.1.resubmitted, Nat.le_refl 1, fun _ => h.2⟩
  refine wp_startJob_of cfg h.1.started (h.1.kept _) (fun _ => ⟨h.1, hj⟩)
    hkept ?_
  exact wp_recordStart hj.gridJobid ⟨rfl, rfl⟩ hkept h.2

/-- What the failure of a part says of the job. -/
private theorem fresh_of_quiet {env : Env}
    (h : Fresh env ∧ (env.db.job? job.gridJobid).isSome = true) (e : Exception) :
    e.isCaught = true → Fresh env := fun _ => h.1

theorem wp_tryToSubmit {j : CreamJob} {env : Env} (laps : ℕ)
    (onlyStart : Bool) (hj : SameOwner job j.toJobRow)
    (h : Fresh env ∧ (env.db.job? job.gridJobid).isSome = true) :
    wp (promise job.gridJobid) (fun env r => Outcome job env r)
      (fun env e => e.isCaught = true → Fresh env) env
      (tryToSubmit lib cfg laps onlyStart j) := by
  unfold tryToSubmit
  simp only [bind_eq, pure_eq]
  refine wp_ask fun t _ => ⟨h.1.kept _, ?_⟩
  split
  · exact ⟨h.1, hj⟩
  split
  · exact wp_execDb (h.1.kept _) (wp_startJob cfg hj h _)
  rw [wp_bind]
  refine wp_mono (fun env₁ j₁ h₁ => ?_) (fun _ e h => fresh_of_quiet h e)
    (wp_quiet_entry (within_logEvent hj _ _ _) h)
  rw [wp_bind]
  refine wp_mono (fun env₂ j₂ h₂ => ?_) (fun _ e h => fresh_of_quiet h e)
    (wp_quiet_entry (within_logEvent h₁.2 _ _ _) h₁.1)
  rw [wp_bind]
  refine wp_mono (fun env₃ r h₃ => ?_) (fun _ e h => fresh_of_quiet h e)
    (wp_quiet_entry
      (within_attempt (within_quiet (within_registerLoop lib cfg j₂ laps {}) job)) h₂.1)
  cases r with
  | error e => exact ⟨h₃.1.1, h₂.2⟩
  | ok r =>
      obtain ⟨delegation, registered⟩ := r
      have hreg := sameOwner_registeredJob cfg h₂.2 delegation registered
      dsimp only
      refine wp_execDb (h₃.1.1.kept _) ?_
      rw [wp_bind]
      refine wp_mono (fun env₄ _ h₄ => ?_) (fun _ e h => fresh_of_quiet h e)
        (wp_quiet_entry (within_updateJob hreg) h₃.1)
      have hreset : SameOwner job (registeredJob cfg j₂ delegation
          registered).resetChangeFlags.toJobRow := hreg
      exact wp_startJob cfg hreset h₄.1 _

theorem wp_createEntry {j : CreamJob} {env : Env} (onlyStart : Bool)
    (hj : SameOwner job j.toJobRow) (h : Fresh env)
    (hentry : onlyStart = true → (env.db.job? job.gridJobid).isSome = true) :
    wp (promise job.gridJobid)
      (fun env j' => (Fresh env ∧ (env.db.job? job.gridJobid).isSome = true) ∧
        SameOwner job j'.toJobRow)
      (fun env e => e.isCaught = true → Fresh env) env
      (createEntry lib cfg onlyStart j) := by
  unfold createEntry
  simp only [bind_eq, pure_eq]
  split
  · rename_i honly
    exact ⟨⟨h, hentry honly⟩, hj⟩
  · have hnew : ((env.db.createJob j.toJobRow).job? job.gridJobid).isSome =
        true := by
      rw [← hj.gridJobid, Db.job?_createJob]
      rfl
    refine wp_execDb ((h.withDb _).kept _) ?_
    rw [wp_bind]
    refine wp_mono (fun env₁ _ h₁ => ?_) (fun _ e h => fresh_of_quiet h e)
      (wp_quiet_entry (within_quiet (within_saveProxy lib cfg _) job) ⟨h.withDb _, hnew⟩)
    exact ⟨h₁.1, hj.trans ⟨rfl, rfl, rfl, rfl, rfl, rfl⟩⟩

theorem wp_submit {j : CreamJob} {env : Env} (laps : ℕ) (onlyStart : Bool)
    (hj : SameOwner job j.toJobRow) (h : Fresh env)
    (hentry : onlyStart = true → (env.db.job? job.gridJobid).isSome = true) :
    wp (promise job.gridJobid) (fun env _ => Over job.gridJobid env)
      (fun env e => e.isCaught = true → Fresh env) env
      (submit lib cfg laps onlyStart j) := by
  unfold submit
  simp only [bind_eq, pure_eq]
  rw [wp_bind]
  refine wp_mono (fun env₁ j₁ h₁ => ?_) (fun _ _ h => h)
    (wp_createEntry lib cfg onlyStart hj h hentry)
  rw [wp_bind]
  refine wp_mono (fun env₂ r h₂ => ?_) (fun _ _ h => h)
    (wp_tryToSubmit lib cfg laps onlyStart h₁.2 h₁.1)
  obtain ⟨j₂, outcome⟩ := r
  cases outcome with
  | ok => exact h₂
  | error e =>
      exact wp_mono (fun _ _ h => h.1.over _) (fun _ _ h _ => h)
        (wp_quiet (within_handleFailure h₂.2 e) h₂.1)

theorem wp_submitGuarded {j : CreamJob} {env : Env} (laps : ℕ)
    (onlyStart : Bool) (hj : SameOwner job j.toJobRow) (h : Fresh env)
    (hentry : onlyStart = true → (env.db.job? job.gridJobid).isSome = true) :
    wp (promise job.gridJobid) (fun env _ => Over job.gridJobid env)
      (fun env e => e.isCaught = true → Over job.gridJobid env) env
      (submitGuarded lib cfg laps onlyStart j) := by
  unfold submitGuarded onException
  rw [wp_tryCatch]
  refine wp_mono (fun _ _ h => h) (fun env₁ e h₁ => ?_)
    (wp_submit lib cfg laps onlyStart hj h hentry)
  split
  · rename_i hcaught
    have hfresh := h₁ hcaught
    exact wp_execDb ((hfresh.withDb _).kept _) fun _ =>
      (hfresh.withDb _).over _
  · rename_i hcaught
    exact fun h => absurd h hcaught

/-- What is found when nothing has been started does not matter. When a job
has, the entry sends the request away. -/
theorem wp_resume {j : CreamJob} {env : Env} (laps : ℕ)
    (hj : SameOwner job j.toJobRow) (h : Over job.gridJobid env) :
    wp (promise job.gridJobid) (fun env _ => Over job.gridJobid env)
      (fun env e => e.isCaught = true → Over job.gridJobid env) env
      (resume lib cfg laps j (env.db.job? j.gridJobid)) := by
  unfold resume
  by_cases hstarted : env.started = []
  · have hfresh : Fresh env := ⟨hstarted, h.1.resubmitted⟩
    cases hentry : env.db.job? j.gridJobid with
    | none => exact wp_submitGuarded lib cfg laps false hj hfresh (by simp)
    | some row =>
        simp only [Option.map_some]
        cases hst : row.status with
        | unknown =>
            exact wp_execDb ((hfresh.withDb _).kept _)
              (wp_submitGuarded lib cfg laps false hj (hfresh.withDb _)
                (by simp))
        | registered =>
            refine wp_submitGuarded lib cfg laps true hj hfresh fun _ => ?_
            rw [← hj.gridJobid, hentry]
            rfl
        | _ => exact h
  · obtain ⟨row, hrow, hunknown, hregistered⟩ := h.2 hstarted
    rw [hj.gridJobid, hrow]
    simp only [Option.map_some]
    cases hst : row.status with
    | unknown => exact absurd hst hunknown
    | registered => exact absurd hst hregistered
    | _ => exact h

theorem wp_purgeRequest {gid : Text} {env : Env} (h : Over gid env) :
    wp (promise gid) (fun env _ => Over gid env) (fun _ e => e = .abort) env
      purgeRequest := by
  unfold purgeRequest
  simp only [bind_eq, pure_eq]
  refine wp_ask fun r _ => ?_
  have hafter := over_world (c := .removeRequest) trivial h r
  refine ⟨hafter.1, ?_⟩
  split
  · exact hafter
  · exact rfl

theorem wp_execute {j : CreamJob} {env : Env} (laps : ℕ)
    (hj : SameOwner job j.toJobRow) (h : Over job.gridJobid env) :
    wp (promise job.gridJobid) (fun env _ => Over job.gridJobid env)
      (fun env e => e.isCaught = true → Over job.gridJobid env) env
      (execute lib cfg laps j) := by
  have hpurge : ∀ env, Over job.gridJobid env →
      wp (promise job.gridJobid) (fun env _ => Over job.gridJobid env)
        (fun env e => e.isCaught = true → Over job.gridJobid env) env
        purgeRequest := fun env h =>
    wp_mono (fun _ _ h => h)
      (fun _ _ h hcaught => absurd hcaught (not_caught_of_abort h))
      (wp_purgeRequest h)
  unfold execute scopeGuard onException
  simp only [bind_eq]
  rw [wp_bind, wp_tryCatch]
  refine wp_execDb h.1 ?_
  refine wp_mono (fun env₁ _ h₁ => hpurge env₁ h₁) (fun env₁ e h₁ => ?_)
    (wp_resume lib cfg laps hj h)
  split
  · rename_i hcaught
    rw [wp_bind]
    exact wp_mono (fun _ _ h _ => h) (fun _ _ h => h)
      (hpurge env₁ (h₁ hcaught))
  · rename_i hcaught
    exact fun h => absurd h hcaught

end

/-! ## The request across stops -/

/-- The invariant of the runs without a stop in the window. -/
structure Sound (gid : Text) (s : State) : Prop where
  kept : Kept gid s.env
  resting : s.running = none → Settled gid s.env
  promised : ∀ p, s.running = some p →
    wp (promise gid) (fun env _ => Over gid env)
      (fun env e => e.isCaught = true → Over gid env) s.env p

section

variable (lib : Libraries) (cfg : Config) (job : CreamJob)

theorem sound_init (gid : Text) (db : Db) : Sound gid (init db) where
  kept := Fresh.kept ⟨rfl, rfl⟩ gid
  resting := fun _ hne => absurd rfl hne
  promised := fun p hp => by cases hp

theorem sound_step {s s' : State} {l : Label} (h : Sound job.gridJobid s)
    (hsafe : Safe job.gridJobid s l)
    (hnext : next lib cfg job s l = some s') : Sound job.gridJobid s' := by
  cases l with
  | dispatch proxyTimeEnd laps =>
      simp only [next] at hnext
      split at hnext
      · rename_i hidle
        simp only [Bool.and_eq_true, Option.isNone_iff_eq_none] at hidle
        cases hnext
        refine ⟨h.kept, (fun hnone => by cases hnone), fun p hp => ?_⟩
        cases hp
        have hj := SameOwner.refl
          (job.setIsbproxyTimeEnd proxyTimeEnd).toJobRow
        have hwp := wp_execute lib cfg laps hj ⟨h.kept, h.resting hidle.2⟩
        exact hwp
      · cases hnext
  | step ans =>
      simp only [next] at hnext
      split at hnext
      · rename_i c k hrunning
        cases hnext
        have hlost : isLost s.env c (ans c) = false := by
          simpa [Safe, hrunning] using hsafe
        obtain ⟨hkept, hrest⟩ := h.promised _ hrunning (ans c) hlost
        refine ⟨hkept, (fun hnone => by cases hnone), fun p hp => ?_⟩
        cases hp
        exact hrest
      · cases hnext
  | finish =>
      simp only [next] at hnext
      split at hnext
      · rename_i hrunning
        cases hnext
        have hover : Over job.gridJobid s.env := h.promised _ hrunning
        exact ⟨h.kept, fun _ => hover.2, fun p hp => by cases hp⟩
      · rename_i hrunning
        cases hnext
        have hsettled : Settled job.gridJobid s.env := by
          simpa [Safe, hrunning] using hsafe
        exact ⟨h.kept, fun _ => hsettled, fun p hp => by cases hp⟩
      · cases hnext
      · rename_i e habort hunfinished hrunning
        cases hnext
        have hcaught : e.isCaught = true := by
          cases e with
          | abort => exact absurd rfl habort
          | unfinished => exact absurd rfl hunfinished
          | _ => rfl
        have hover : Over job.gridJobid s.env :=
          h.promised _ hrunning hcaught
        exact ⟨h.kept, fun _ => hover.2, fun p hp => by cases hp⟩
      · cases hnext
  | crash =>
      simp only [next] at hnext
      split at hnext
      · cases hnext
        exact ⟨h.kept, fun _ => hsafe, fun p hp => by cases hp⟩
      · cases hnext
  | restart =>
      simp only [next] at hnext
      split at hnext
      · cases hnext
      · cases hnext
        exact ⟨h.kept, h.resting, h.promised⟩

/-- Once CREAM has started the job, it is not resubmitted, not started a
second time as another CREAM job, and its entry stays. -/
theorem kept_of_safe (db : Db) {ls : List Label} {s : State}
    (hsafe : Meets (next lib cfg job) (Safe job.gridJobid) (init db) ls)
    (hrun : run (next lib cfg job) (init db) ls = some s) :
    Kept job.gridJobid s.env :=
  (run_invariant (fun _ _ _ hi hok hn => sound_step lib cfg job hi hok hn)
    (sound_init _ db) hsafe hrun).kept

end

/-! ## A stop in the window -/

/-- An outside in which everything succeeds. The operations on the database
have their results from the world. -/
def obliging : (c : Call) → Answer c
  | .db op => (Db.run {} op).1
  | .time => 0
  | .log _ _ => some ['s']
  | .copyProxy _ _ => true
  | .computeSha1Digest _ => .ok ['d']
  | .generateDelegationID => ['i']
  | .creamDelegate _ _ _ => .ok ()
  | .creamRegister _ _ _ _ _ => .result .ok ⟨['C'], ['c'], ['7']⟩ []
  | .creamStart _ _ _ => .result {}
  | .noResubmit => false
  | .proxyTimeEnd _ => 1000
  | .putRequest _ _ => .ok ()
  | .removeRequest => true

def plainLibraries : Libraries where
  parseClassAd := fun _ => none
  creamJdlHelper := fun jdl => .ok jdl
  parseCEID := fun _ => .error []
  compressedString := fun s => s

def plainConfig : Config where
  creamUrlPrefix := []
  creamUrlPostfix := []
  creamdelegationUrlPrefix := []
  creamdelegationUrlPostfix := []
  leaseDeltaTime := 0
  proxyRenewalFrequency := 0
  persistDir := []
  input := []

def plainJob : CreamJob :=
  { gridJobid := ['g'], userDn := ['u'], userProxyfile := ['p']
    creamAddress := ['c'], tokenFile := ['/', 't'], isbproxyTimeEnd := 10 }

/-- The request is read and so many calls are made. -/
def calls (n : ℕ) : List Label :=
  .dispatch 10 1 :: List.replicate n (.step obliging)

theorem isLost_obliging (env : Env) (c : Call) :
    isLost env c (obliging c) = false := by
  cases c with
  | _ => rfl

/-- ICE stops before the job is registered and once more after the update that
writes `IDLE`. When it is back for the second time it removes the request. -/
def stopsOutside : List Label :=
  calls 12 ++ [.crash, .restart] ++ calls 24 ++ [.crash, .restart] ++ calls 2

/-- Whether a stop finds the entry settled. -/
def stopsSettled (gid : Text) (p : State × Label) : Bool :=
  match p.2 with
  | .crash => p.1.env.started.isEmpty || (p.1.env.db.job? gid).any fun row =>
      row.status != .unknown && row.status != .registered
  | _ => true

theorem settled_of_stopsSettled {gid : Text} {s : State}
    (h : stopsSettled gid (s, .crash) = true) : Settled gid s.env := by
  intro hne
  rcases Bool.or_eq_true_iff.mp h with hempty | hany
  · exact absurd (List.isEmpty_iff.mp hempty) hne
  · obtain ⟨row, hrow, hstatus⟩ := (Option.any_eq_true _ _).mp hany
    rw [Bool.and_eq_true, bne_iff_ne, bne_iff_ne] at hstatus
    exact ⟨row, hrow, hstatus⟩

/-- The command starts the job in the end, and its entry stays. -/
theorem kept_of_safe_plain :
    ∃ s, run (next plainLibraries plainConfig plainJob) (init {}) stopsOutside =
        some s ∧
      s.env.started = [['C']] ∧ s.env.request = false ∧
      Kept plainJob.gridJobid s.env := by
  have hstarted : (run (next plainLibraries plainConfig plainJob) (init {})
      stopsOutside).map (fun s => (s.env.started, s.env.request)) =
        some ([['C']], false) := by decide +kernel
  have hstops : ((steps (next plainLibraries plainConfig plainJob) (init {})
      stopsOutside).all (stopsSettled plainJob.gridJobid)) = true := by decide +kernel
  obtain ⟨s, hs, hst⟩ := Option.map_eq_some_iff.mp hstarted
  refine ⟨s, hs, congrArg Prod.fst hst, congrArg Prod.snd hst,
    kept_of_safe plainLibraries plainConfig plainJob {} ?_ hs⟩
  rintro ⟨s', l⟩ hp
  have hlabel : l = .dispatch 10 1 ∨ l = .step obliging ∨ l = .crash ∨ l = .restart := by
    have hl := label_mem_of_steps hp
    simp only [stopsOutside, calls, List.mem_append, List.mem_cons, List.mem_replicate,
      List.not_mem_nil, or_false] at hl
    tauto
  rcases hlabel with rfl | rfl | rfl | rfl
  · trivial
  · simp only [Safe]
    split
    · exact isLost_obliging _ _
    · trivial
  · exact settled_of_stopsSettled (List.all_eq_true.mp hstops _ hp)
  · trivial

/-- ICE stops between the start and the update. When it is back, CREAM refuses
to start the job again, and the job is resubmitted. -/
theorem resubmitted_after_stop :
    ¬ ∀ ls s, run (next plainLibraries plainConfig plainJob) (init {}) ls =
        some s → Kept plainJob.gridJobid s.env := by
  intro h
  have hcount : (run (next plainLibraries plainConfig plainJob) (init {})
      (calls 21 ++ [.crash, .restart] ++ calls 10)).map
        (fun s => s.env.resubmitted) = some 1 := by decide
  obtain ⟨s, hs, hone⟩ := Option.map_eq_some_iff.mp hcount
  have hzero := (h _ s hs).resubmitted
  omega

end Wms.Ice.Restart
