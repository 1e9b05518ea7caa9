import Wms.Proofs.Resubmit

/-!
# A submission that is interrupted before the start

A submission is interrupted when its entry says `REGISTERED` and CREAM has not
started the job. The entry then holds what the registration has given. The
command that goes on builds the job from the request again, takes over the
identifiers of the entry as texts, and writes every field, as all flags of the
job are up.

What becomes of the entry is worked out for both continuations by the same
lemma about `startJob`: the one that was not interrupted goes on with a job that
has its flags down, the other with one that has them up.
-/

namespace Wms.Ice.Restart

open Wms.Lib Wms.Ice Proc

/-- The fields a submission is compared by. -/
structure SameRecord (a b : JobRow) : Prop where
  creamJobid : a.creamJobid = b.creamJobid
  completeCreamJobid : a.completeCreamJobid = b.completeCreamJobid
  delegationId : a.delegationId = b.delegationId
  leaseId : a.leaseId = b.leaseId
  creamDbid : a.creamDbid = b.creamDbid
  tokenFile : a.tokenFile = b.tokenFile
  status : a.status = b.status
  jdl : a.jdl = b.jdl
  modifiedJdl : a.modifiedJdl = b.modifiedJdl

/-- CREAM has registered the job, the entry says so, and the job was not
started. -/
structure Waiting (gid : Text) (env : Env) (r : JobRow) : Prop where
  started : env.started = []
  entry : env.db.job? gid = some r
  status : r.status = .registered

/-- What a resumption leaves of an entry is what was there. -/
def Resumable (r : JobRow) : Prop :=
  r.delegationId = [] ∧ r.creamDbid = 0 ∧
    CreamJob.tokenFileOf r.tokenFile = some r.tokenFile ∧ r.creamJobid ≠ []

/-- Nothing but the state is owed. -/
abbrev answered : Contract Env Call Answer := contract fun _ => True

/-- Nothing is assumed either. -/
abbrev outside : Contract Env Call Answer := Contract.free world

/-! ## The entry after a start -/

/-- An entry that is written twice with the sequence code of the LB between. -/
def rewritten (j : CreamJob) (token code : Text) (r : JobRow) : JobRow :=
  j.written token { j.written token r with sequenceCode := code }

theorem written_withSeqCode (j : CreamJob) (code token : Text) (r : JobRow) :
    (withSeqCode j.resetChangeFlags false code).written token r =
      { r with sequenceCode := code } := rfl

theorem wp_recordStart_row {j : CreamJob} {env : Env} {r : JobRow}
    (hrow : env.db.job? j.gridJobid = some r) :
    wp answered
      (fun env out => out.2 = .ok () ∧ ∃ token code,
        j.writtenToken = some token ∧
          env.db.job? j.gridJobid = some (rewritten j token code r))
      (fun env e => e = .abort ∧ j.writtenToken = none ∧
        env.db.job? j.gridJobid = some r)
      env (recordStart j) := by
  unfold recordStart
  simp only [bind_eq, pure_eq]
  cases htoken : j.writtenToken with
  | none =>
      simp only [updateJob, htoken]
      exact ⟨rfl, trivial, hrow⟩
  | some token =>
      have hupdate : ∀ env' : Env, ∀ row, env'.db.job? j.gridJobid = some row →
          (env'.db.updateJob j token).job? j.gridJobid =
            some (j.written token row) := by
        intro env' row h
        rw [Db.job?_updateJob, h]
        rfl
      have hfirst : updateJob j = execDb (.updateJob j token) := by
        simp only [updateJob, htoken]
      rw [hfirst]
      have hrow₁ := hupdate env r hrow
      refine wp_execDb trivial ?_
      unfold logEvent
      simp only [bind_eq, pure_eq, bind_bind]
      refine wp_ask fun answer _ => ⟨trivial, ?_⟩
      cases answer with
      | none =>
          refine wp_ask fun t _ => ⟨trivial, ?_⟩
          refine wp_execDb trivial
            ⟨rfl, token, (j.written token r).sequenceCode, rfl, ?_⟩
          exact hupdate { env with db := env.db.updateJob j token } _ hrow₁
      | some code =>
          have hseq : updateJobIf true
              (withSeqCode j.resetChangeFlags false code) =
                execDb (.updateJob (withSeqCode j.resetChangeFlags false code)
                  []) := rfl
          simp only [world, bind_bind, hseq]
          refine wp_execDb trivial ?_
          refine wp_ask fun t _ => ⟨trivial, ?_⟩
          refine wp_execDb trivial ⟨rfl, token, code, rfl, ?_⟩
          have hrow₂ : ((env.db.updateJob j token).updateJob
              (withSeqCode j.resetChangeFlags false code) []).job?
                j.gridJobid =
              some { j.written token r with sequenceCode := code } := by
            have h := Db.job?_updateJob (env.db.updateJob j token)
              (withSeqCode j.resetChangeFlags false code) []
            rw [show (withSeqCode j.resetChangeFlags false code).gridJobid =
              j.gridJobid from rfl] at h
            rw [h, hrow₁, Option.map_some, written_withSeqCode]
          exact hupdate ⟨(env.db.updateJob j token).updateJob
            (withSeqCode j.resetChangeFlags false code) [], [], false, 0⟩ _
            hrow₂

/-- The two writings agree on the fields compared. -/
theorem sameRecord_rewritten (j : CreamJob) (token code : Text) (r : JobRow) :
    SameRecord (j.written token r) (rewritten j token code r) := by
  constructor <;> simp only [rewritten, CreamJob.written] <;> split <;> rfl

/-- The nine fields after a start that was not interrupted. -/
theorem sameRecord_started {cfg : Config} {j : CreamJob} {r : JobRow}
    {toStart : ToStart} (hflags : j.changed = fun _ => false)
    (hid : r.creamJobid = toStart.jobId)
    (hdbid : r.creamDbid = strtoull toStart.dbid)
    (hcomplete : r.completeCreamJobid =
      if toStart.jobId.isEmpty || j.creamAddress.isEmpty then
        j.completeCreamJobid
      else CreamJob.completeId cfg j.creamAddress toStart.jobId)
    (token : Text) :
    SameRecord { r with status := .idle }
      ((startedJob cfg j toStart).written token r) := by
  constructor <;>
    simp [startedJob, CreamJob.written, CreamJob.setCreamJobid,
      CreamJob.setStatus, CreamJob.setWnSequenceCode, CreamJob.setCreamDbid,
      CreamJob.touch, hflags, hid, hdbid, hcomplete]

/-- The nine fields after a start that was resumed. -/
theorem written_resumed (cfg : Config) {job : CreamJob} (toStart : ToStart)
    (hflags : job.changed = fun _ => true) (token : Text) (r : JobRow) :
    SameRecord
      { job.toJobRow with
        creamJobid := toStart.jobId
        completeCreamJobid :=
          if toStart.jobId.isEmpty || job.creamAddress.isEmpty then
            job.completeCreamJobid
          else CreamJob.completeId cfg job.creamAddress toStart.jobId
        creamDbid := strtoull toStart.dbid
        tokenFile := token
        status := .idle }
      ((startedJob cfg job toStart).written token r) := by
  constructor <;>
    simp [startedJob, CreamJob.written, CreamJob.setCreamJobid,
      CreamJob.setStatus, CreamJob.setWnSequenceCode, CreamJob.setCreamDbid,
      CreamJob.touch, hflags]

/-! ## The job of a request -/

/-- What the parser leaves of the fields that a registration fills. -/
structure NewJob (job : CreamJob) : Prop where
  changed : job.changed = fun _ => true
  creamAddress : job.creamAddress ≠ []
  delegationId : job.delegationId = []
  leaseId : job.leaseId = []
  completeCreamJobid : job.completeCreamJobid = []
  status : job.status = .unknown

theorem NewJob.setIsbproxyTimeEnd {job : CreamJob} (h : NewJob job) (t : ℤ) :
    NewJob (job.setIsbproxyTimeEnd t) where
  changed := by
    funext f
    simp [CreamJob.setIsbproxyTimeEnd, CreamJob.touch, h.changed]
  creamAddress := h.creamAddress
  delegationId := h.delegationId
  leaseId := h.leaseId
  completeCreamJobid := h.completeCreamJobid
  status := h.status

private theorem ok_of_bind {α β : Type} {x : Except Text α}
    {f : α → Except Text β} {b : β} (h : x >>= f = .ok b) :
    ∃ a, x = .ok a ∧ f a = .ok b := by
  cases x with
  | error e => cases h
  | ok a => exact ⟨a, rfl, h⟩

private theorem newJob_setJdl {lib : Libraries} {cfg : Config} {jdl : Text}
    {job : CreamJob} (h : CreamJob.setJdl lib cfg {} jdl = .ok job) :
    NewJob job := by
  unfold CreamJob.setJdl at h
  cases hparse : lib.parseClassAd jdl with
  | none =>
      rw [hparse] at h
      cases h
  | some ad =>
      rw [hparse] at h
      obtain ⟨ad, -, h⟩ := ok_of_bind h
      obtain ⟨ceid, -, h⟩ := ok_of_bind h
      obtain ⟨token, -, h⟩ := ok_of_bind h
      obtain ⟨proxy, -, h⟩ := ok_of_bind h
      obtain ⟨gid, -, h⟩ := ok_of_bind h
      obtain ⟨pieces, -, h⟩ := ok_of_bind h
      obtain ⟨modified, -, h⟩ := ok_of_bind h
      cases h
      constructor <;> simp

theorem newJob_ofRequest {lib : Libraries} {cfg : Config}
    {jdl userDn : Text} {t : ℤ} {job : CreamJob}
    (h : CreamJob.ofRequest lib cfg jdl userDn t = .ok job) : NewJob job := by
  unfold CreamJob.ofRequest at h
  obtain ⟨j, hset, h⟩ := ok_of_bind h
  have hj := newJob_setJdl hset
  cases h
  refine NewJob.setIsbproxyTimeEnd ?_ t
  refine ⟨?_, hj.creamAddress, hj.delegationId, hj.leaseId,
    hj.completeCreamJobid, rfl⟩
  funext f
  simp [CreamJob.setUserDn, CreamJob.setStatus, CreamJob.touch, hj.changed]

/-! ## The registered entry -/

/-- What the registration leaves in the entry of a job. -/
structure Registration (cfg : Config) (job r : JobRow) : Prop where
  tokenFile : r.tokenFile = job.tokenFile
  jdl : r.jdl = job.jdl
  modifiedJdl : r.modifiedJdl = job.modifiedJdl
  leaseId : r.leaseId = []
  ne_nil : r.completeCreamJobid ≠ []
  completeCreamJobid : r.creamJobid ≠ [] →
    r.completeCreamJobid =
      CreamJob.completeId cfg job.creamAddress r.creamJobid

theorem completeId_ne_nil (cfg : Config) (url cid : Text) :
    CreamJob.completeId cfg url cid ≠ [] := by
  simp [CreamJob.completeId]

/-- The entry of a job that waits for the registration. -/
structure Created (job r : JobRow) : Prop where
  status : r.status = .unknown
  tokenFile : r.tokenFile = job.tokenFile
  jdl : r.jdl = job.jdl
  modifiedJdl : r.modifiedJdl = job.modifiedJdl

/-- The identifier of the CREAM service with that of the job; without one of
the two it stays what the registration made of it. -/
def registeredId (cfg : Config) (j : CreamJob) (registered : Registered) :
    Text :=
  if registered.creamJobid.isEmpty || j.creamAddress.isEmpty then
    CreamJob.completeId cfg registered.creamUrl registered.creamJobid
  else CreamJob.completeId cfg j.creamAddress registered.creamJobid

/-- What the update after the registration writes. -/
theorem written_registeredJob {cfg : Config} {j : CreamJob}
    (hflags : j.changed = fun _ => false) (delegation : Text)
    (registered : Registered) (token : Text) (r : JobRow) :
    (registeredJob cfg j delegation registered).written token r =
      { r with
        delegationId := delegation
        leaseId := []
        prevStatus := j.status
        status := .registered
        creamDbid := strtoull registered.dbId
        completeCreamJobid := registeredId cfg j registered
        creamJobid := registered.creamJobid } := by
  simp [registeredJob, registeredId, CreamJob.written, CreamJob.setCreamJobid,
    CreamJob.setCompleteCreamJobid, CreamJob.setCreamDbid, CreamJob.setStatus,
    CreamJob.setLeaseId, CreamJob.setDelegationId, CreamJob.touch, hflags]

theorem registration_registered (cfg : Config) {job r : JobRow} {j : CreamJob}
    (haddress : j.creamAddress = job.creamAddress)
    (hne : job.creamAddress ≠ []) (hr : Created job r) (delegation : Text)
    (registered : Registered) :
    Registration cfg job
      { r with
        delegationId := delegation
        leaseId := []
        prevStatus := j.status
        status := .registered
        creamDbid := strtoull registered.dbId
        completeCreamJobid := registeredId cfg j registered
        creamJobid := registered.creamJobid } where
  tokenFile := hr.tokenFile
  jdl := hr.jdl
  modifiedJdl := hr.modifiedJdl
  leaseId := rfl
  ne_nil := by
    unfold registeredId
    split
    · exact completeId_ne_nil _ _ _
    · exact completeId_ne_nil _ _ _
  completeCreamJobid := by
    intro hid
    have hid' : registered.creamJobid ≠ [] := hid
    simp [registeredId, haddress, hne, hid']

/-! ## Where a program stands -/

/-- Where the job was started, its entry is that of the registration with the
new status. -/
def Ended (cfg : Config) (job : CreamJob) (r : JobRow) (env : Env) : Prop :=
  env.started ≠ [] →
    Registration cfg job.toJobRow r ∧
      ∃ r', env.db.job? job.gridJobid = some r' ∧
        SameRecord { r with status := .idle } r'

/-- If the job waits to be started here, the program ends as it should. -/
def Good (cfg : Config) (job : CreamJob) (env : Env) (p : IceProc Unit) :
    Prop :=
  ∀ r, Waiting job.gridJobid env r →
    wp answered (fun env _ => Ended cfg job r env)
      (fun env _ => Ended cfg job r env) env p

/-- A call that is not a start. -/
def StartFree (c : Call) : Prop :=
  ∀ url proxy jobId, c ≠ .creamStart url proxy jobId

theorem callsOnly_startFree {job : JobRow} {α : Type} {R : α → Prop}
    {p : IceProc α} (h : Within (Quiet job) R p) : CallsOnly StartFree p :=
  callsOnly_mono (fun _ hc => ne_start_of_quiet hc) (callsOnly_of_within h)

theorem wp_startFree {α : Type} {env : Env} {p : IceProc α}
    (hp : CallsOnly StartFree p) (h : env.started = []) :
    wp answered (fun env _ => env.started = []) (fun env _ => env.started = [])
      env p :=
  wp_of_callsOnly (fun _ _ r hc hs _ => ⟨trivial, started_world hs hc r⟩) hp h

theorem good_of_startFree {cfg : Config} {job : CreamJob} {env : Env}
    {p : IceProc Unit} (hp : CallsOnly StartFree p) : Good cfg job env p :=
  fun _ hw => wp_mono (fun _ _ h hne => absurd h hne)
    (fun _ _ h hne => absurd h hne) (wp_startFree hp hw.started)

theorem along_of_startFree {cfg : Config} {job : CreamJob} {env : Env}
    {p : IceProc Unit} (hp : CallsOnly StartFree p) :
    Along outside (Good cfg job) env p :=
  along_of_callsOnly (I := fun _ => True) (fun _ _ _ _ _ _ => trivial)
    (fun _ _ hq _ => good_of_startFree hq) hp trivial

/-- The entry waits for the registration. -/
def Early (job : CreamJob) (env : Env) : Prop :=
  ∃ r, env.db.job? job.gridJobid = some r ∧ Created job.toJobRow r

theorem Early.good {cfg : Config} {job : CreamJob} {env : Env}
    (h : Early job env) (p : IceProc Unit) : Good cfg job env p := by
  obtain ⟨r, hr, hcreated⟩ := h
  intro r' hw
  have heq : r' = r := Option.some.inj (hw.entry.symm.trans hr)
  have hst := hw.status
  rw [heq, hcreated.status] at hst
  cases hst

/-- A call that leaves the table of jobs alone, up to the sequence code of an
entry. -/
def Coded (gid : Text) (c : Call) : Prop :=
  Aside c ∨ ∃ j token, c = .db (.updateJob j token) ∧ j.gridJobid = gid ∧
    ∀ f, j.changed f = true → f = .sequenceCode

private theorem created_written {job r : JobRow} {j : CreamJob} {token : Text}
    (hflags : ∀ f, j.changed f = true → f = .sequenceCode)
    (h : Created job r) : Created job (j.written token r) := by
  have hdown : ∀ f, f ≠ .sequenceCode → j.changed f = false := by
    intro f hf
    cases hc : j.changed f with
    | false => rfl
    | true => exact absurd (hflags f hc) hf
  constructor
  · simpa [CreamJob.written, hdown .status] using h.status
  · simpa [CreamJob.written, hdown .tokenFile] using h.tokenFile
  · simpa [CreamJob.written, hdown .jdl] using h.jdl
  · simpa [CreamJob.written, hdown .modifiedJdl] using h.modifiedJdl

theorem early_world {job : CreamJob} {env : Env} {c : Call}
    (hc : Coded job.gridJobid c) (h : Early job env) (r : Answer c) :
    Early job (world env c r).2 := by
  obtain ⟨row, hrow, hcreated⟩ := h
  rcases hc with haside | ⟨j, token, rfl, hgid, hflags⟩
  · refine ⟨row, ?_, hcreated⟩
    cases c with
    | creamStart url proxy jobId => exact haside.elim
    | db op =>
        show (env.db.run op).2.job? job.gridJobid = some row
        unfold Db.job? at hrow ⊢
        rw [jobs_run_of_aside haside]
        exact hrow
    | noResubmit =>
        simp only [world]
        split
        · exact hrow
        · exact hrow
    | _ => exact hrow
  · refine ⟨j.written token row, ?_, created_written hflags hcreated⟩
    show (env.db.updateJob j token).job? job.gridJobid = _
    rw [← hgid] at hrow ⊢
    rw [Db.job?_updateJob, hrow]
    rfl

/-- The job in memory is the one that was written to the table. -/
structure Bare (job j : CreamJob) : Prop where
  changed : j.changed = fun _ => false
  gridJobid : j.gridJobid = job.gridJobid
  creamAddress : j.creamAddress = job.creamAddress

theorem within_logEvent_bare {job j : CreamJob} (h : Bare job j)
    (event : LbEvent) :
    Within (Coded job.gridJobid) (Bare job)
      (logEvent event j false true) := by
  refine within_mono (fun _ hc => hc) ?_
    (within_logEvent_of (P := Coded job.gridJobid) (Or.inl trivial)
      fun code token => Or.inr ⟨_, token, rfl, h.gridJobid, fun f hf => ?_⟩)
  · rintro j' (rfl | ⟨code, rfl⟩)
    · exact h
    · exact ⟨rfl, h.gridJobid, h.creamAddress⟩
  · simpa [withSeqCode, CreamJob.setSequenceCode, CreamJob.touch,
      h.changed] using hf

theorem within_coded {α : Type} {R : α → Prop} {p : IceProc α}
    (h : Within Aside R p) (gid : Text) : Within (Coded gid) R p :=
  within_mono (fun _ hc => Or.inl hc) (fun _ h => h) h

/-! ## The two ends of a command -/

/-- What follows `try_to_submit`. -/
def afterTry : CreamJob × Except Exception Unit → IceProc Unit
  | (_, .ok ()) => pure ()
  | (job, .error e) => handleFailure job e

/-- A command whose guards are up. -/
def guarded (gid : Text) (p : IceProc Unit) : IceProc Unit :=
  scopeGuard purgeRequest (onException (execDb (.removeJobByGid gid)) p)

theorem isContext_submission {α : Type} (gid : Text) (f : α → IceProc Unit) :
    IsContext fun p => guarded gid (p.bind f) := fun _ _ => rfl

theorem callsOnly_purgeRequest : CallsOnly StartFree purgeRequest := by
  unfold purgeRequest
  refine callsOnly_bind (callsOnly_perform fun _ _ _ h => nomatch h)
    fun removed => ?_
  split
  · trivial
  · trivial

theorem callsOnly_guarded {p : IceProc Unit} (hp : CallsOnly StartFree p)
    (gid : Text) : CallsOnly StartFree (guarded gid p) := by
  have hremove : CallsOnly StartFree (execDb (.removeJobByGid gid)) :=
    callsOnly_perform fun _ _ _ h => nomatch h
  have honException : ∀ f q : IceProc Unit, CallsOnly StartFree f →
      CallsOnly StartFree q → CallsOnly StartFree (onException f q) := by
    intro f q hf hq
    refine callsOnly_tryCatch hq fun e => ?_
    split
    · exact callsOnly_bind hf fun _ => trivial
    · trivial
  exact callsOnly_bind
    (honException _ _ callsOnly_purgeRequest (honException _ _ hremove hp))
    fun _ => callsOnly_purgeRequest

theorem callsOnly_afterTry (r : CreamJob × Except Exception Unit) :
    CallsOnly StartFree (afterTry r) := by
  obtain ⟨j, outcome⟩ := r
  cases outcome with
  | ok => trivial
  | error e =>
      exact callsOnly_startFree (within_handleFailure (SameOwner.refl _) e)

/-- The end of a command whose start was recorded. What was written stays, and
so does a property of it. -/
theorem wp_guarded {gid : Text} {Post : Env → Prop}
    (hnone : ∀ env, env.started = [] → Post env)
    (hrequest : ∀ env b, Post env → Post { env with request := b })
    {env : Env} {p : IceProc (CreamJob × Except Exception Unit)}
    (h : wp answered
      (fun env out => out.2 = .ok () ∧ Post env ∨ env.started = [])
      (fun env e => e = .abort ∧ Post env ∨ env.started = []) env p) :
    wp answered (fun env _ => Post env) (fun env _ => Post env) env
      (guarded gid (p.bind afterTry)) := by
  have hfree : ∀ env q, CallsOnly StartFree q → env.started = [] →
      wp answered (fun env (_ : Unit) => Post env) (fun env _ => Post env)
        env q := fun env q hq hs =>
    wp_mono (fun env _ h => hnone env h) (fun env _ h => hnone env h)
      (wp_startFree hq hs)
  rw [wp_context (isContext_submission gid afterTry)]
  refine wp_mono (fun env₁ out h₁ => ?_) (fun env₁ e h₁ => ?_) h
  · rcases h₁ with ⟨hok, hpost⟩ | hs
    · obtain ⟨j, outcome⟩ := out
      cases hok
      refine wp_ask fun removed _ => ⟨trivial, ?_⟩
      have hafter := hrequest env₁ (env₁.request && !removed) hpost
      split
      · exact hafter
      · exact hafter
    · exact hfree env₁ _ (callsOnly_guarded (callsOnly_afterTry out) gid) hs
  · rcases h₁ with ⟨rfl, hpost⟩ | hs
    · exact hpost
    · exact hfree env₁ _ (callsOnly_guarded (callsOnly_throw e) gid) hs

/-! ## A start from a registered entry -/

/-- The entry after the start, or the process has stopped without writing. -/
def Recorded (cfg : Config) (gid : Text) (j : CreamJob) (toStart : ToStart)
    (r : JobRow) (env : Env) : Prop :=
  (∃ token code, (startedJob cfg j toStart).writtenToken = some token ∧
      env.db.job? gid =
        some (rewritten (startedJob cfg j toStart) token code r)) ∨
    (startedJob cfg j toStart).writtenToken = none ∧ env.db.job? gid = some r

theorem wp_startJob_waiting (cfg : Config) {gid : Text} {j : CreamJob}
    {toStart : ToStart} {env : Env} {r : JobRow} (hj : j.gridJobid = gid)
    (hw : Waiting gid env r) :
    wp answered
      (fun env out => out.2 = .ok () ∧ Recorded cfg gid j toStart r env ∨
        env.started = [])
      (fun env e => e = .abort ∧ Recorded cfg gid j toStart r env ∨
        env.started = [])
      env (startJob cfg j toStart) := by
  refine wp_startJob_of cfg hw.started trivial (fun _ => Or.inr hw.started)
    trivial ?_
  have hid : (startedJob cfg j toStart).gridJobid = gid := hj
  have hentry : ({ env with started := [toStart.jobId] } : Env).db.job?
      (startedJob cfg j toStart).gridJobid = some r := by
    rw [hid]
    exact hw.entry
  have hrow := wp_recordStart_row hentry
  rw [hid] at hrow
  refine wp_mono (fun env₁ out h => ?_) (fun env₁ e h => ?_) hrow
  · exact Or.inl ⟨h.1, Or.inl h.2⟩
  · exact Or.inl ⟨h.1, Or.inr h.2⟩

theorem SameRecord.trans {a b c : JobRow} (h : SameRecord a b)
    (h' : SameRecord b c) : SameRecord a c where
  creamJobid := h.creamJobid.trans h'.creamJobid
  completeCreamJobid := h.completeCreamJobid.trans h'.completeCreamJobid
  delegationId := h.delegationId.trans h'.delegationId
  leaseId := h.leaseId.trans h'.leaseId
  creamDbid := h.creamDbid.trans h'.creamDbid
  tokenFile := h.tokenFile.trans h'.tokenFile
  status := h.status.trans h'.status
  jdl := h.jdl.trans h'.jdl
  modifiedJdl := h.modifiedJdl.trans h'.modifiedJdl

theorem SameRecord.symm {a b : JobRow} (h : SameRecord a b) :
    SameRecord b a where
  creamJobid := h.creamJobid.symm
  completeCreamJobid := h.completeCreamJobid.symm
  delegationId := h.delegationId.symm
  leaseId := h.leaseId.symm
  creamDbid := h.creamDbid.symm
  tokenFile := h.tokenFile.symm
  status := h.status.symm
  jdl := h.jdl.symm
  modifiedJdl := h.modifiedJdl.symm

theorem completeCreamJobid_registeredJob (cfg : Config) (j : CreamJob)
    (delegation : Text) (registered : Registered) :
    (registeredJob cfg j delegation registered).completeCreamJobid =
      registeredId cfg j registered := by
  simp [registeredJob, registeredId, CreamJob.setCreamJobid,
    CreamJob.setCompleteCreamJobid, CreamJob.setCreamDbid, CreamJob.setStatus,
    CreamJob.setLeaseId, CreamJob.setDelegationId]

theorem updateJob_registeredJob {cfg : Config} {j : CreamJob}
    (hflags : j.changed = fun _ => false) (delegation : Text)
    (registered : Registered) :
    updateJob (registeredJob cfg j delegation registered) =
      execDb (.updateJob (registeredJob cfg j delegation registered) []) := by
  have hdown : (registeredJob cfg j delegation registered).changed .tokenFile =
      false := by
    simp [registeredJob, CreamJob.setCreamJobid,
      CreamJob.setCompleteCreamJobid, CreamJob.setCreamDbid,
      CreamJob.setStatus, CreamJob.setLeaseId, CreamJob.setDelegationId,
      CreamJob.touch, hflags]
  unfold updateJob CreamJob.writtenToken
  rw [hdown]
  rfl

/-- A job that has its flags down writes what the start has added. -/
theorem ended_of_recorded {cfg : Config} {job j : CreamJob} {r : JobRow}
    {toStart : ToStart} {env : Env} (hflags : j.changed = fun _ => false)
    (hreg : Registration cfg job.toJobRow r)
    (hid : r.creamJobid = toStart.jobId)
    (hdbid : r.creamDbid = strtoull toStart.dbid)
    (hcomplete : r.completeCreamJobid =
      if toStart.jobId.isEmpty || j.creamAddress.isEmpty then
        j.completeCreamJobid
      else CreamJob.completeId cfg j.creamAddress toStart.jobId)
    (h : Recorded cfg job.gridJobid j toStart r env) :
    Ended cfg job r env := by
  intro _
  refine ⟨hreg, ?_⟩
  rcases h with ⟨token, code, -, hrow⟩ | ⟨hnone, -⟩
  · exact ⟨_, hrow, (sameRecord_started hflags hid hdbid hcomplete token).trans
      (sameRecord_rewritten _ token code r)⟩
  · have hdown : (startedJob cfg j toStart).changed .tokenFile = false := by
      simp [startedJob, CreamJob.setCreamJobid, CreamJob.setStatus,
        CreamJob.setWnSequenceCode, CreamJob.setCreamDbid, CreamJob.touch,
        hflags]
    unfold CreamJob.writtenToken at hnone
    rw [hdown] at hnone
    cases hnone

/-- The job that was just registered is started. -/
theorem good_startJob {cfg : Config} {job j : CreamJob} (hj : Bare job j)
    (hne : job.creamAddress ≠ []) {r : JobRow} (hr : Created job.toJobRow r)
    {env : Env} (delegation : Text) (registered : Registered)
    (hentry : env.db.job? job.gridJobid =
      some ((registeredJob cfg j delegation registered).written [] r)) :
    Good cfg job env
      (guarded job.gridJobid
        ((startJob cfg
          (registeredJob cfg j delegation registered).resetChangeFlags
          { creamUrl := registered.creamUrl, jobId := registered.creamJobid
            dbid := registered.dbId }).bind afterTry)) := by
  rw [written_registeredJob hj.changed] at hentry
  intro row hw
  have heq := Option.some.inj (hw.entry.symm.trans hentry)
  have hreg := registration_registered cfg hj.creamAddress hne hr
    delegation registered
  have howner := sameOwner_registeredJob cfg (SameOwner.refl j.toJobRow)
    delegation registered
  have hcomplete := completeCreamJobid_registeredJob cfg j delegation
    registered
  rw [← heq] at hreg
  generalize registeredJob cfg j delegation registered = j' at howner hcomplete ⊢
  have hid : j'.resetChangeFlags.gridJobid = job.gridJobid :=
    howner.gridJobid.trans hj.gridJobid
  have hends : ∀ env, Recorded cfg job.gridJobid j'.resetChangeFlags
      { creamUrl := registered.creamUrl, jobId := registered.creamJobid
        dbid := registered.dbId } row env → Ended cfg job row env := by
    intro env h
    refine ended_of_recorded rfl hreg (by rw [heq]) (by rw [heq]) ?_ h
    rw [heq]
    show registeredId cfg j registered =
      if registered.creamJobid.isEmpty || j'.creamAddress.isEmpty then
        j'.completeCreamJobid
      else CreamJob.completeId cfg j'.creamAddress registered.creamJobid
    rw [hcomplete, howner.creamAddress]
    unfold registeredId
    split
    · rfl
    · rfl
  refine wp_guarded (fun env hs hne => absurd hs hne) (fun env b h => h) ?_
  refine wp_mono (fun env₁ out h => ?_) (fun env₁ e h => ?_)
    (wp_startJob_waiting cfg hid hw)
  · exact h.imp_left fun h => ⟨h.1, hends env₁ h.2⟩
  · exact h.imp_left fun h => ⟨h.1, hends env₁ h.2⟩

/-! ## All along a submission -/

section

variable {lib : Libraries} {cfg : Config} {job : CreamJob}

theorem along_ask {gid : Text} {env : Env} {c : Call}
    {f : Answer c → IceProc Unit}
    (h : Good cfg job env (guarded gid ((ask c).bind f)))
    (hnext : ∀ r, Along outside (Good cfg job) (world env c r).2
      (guarded gid (f (world env c r).1))) :
    Along outside (Good cfg job) env (guarded gid ((ask c).bind f)) :=
  ⟨h, fun r _ => hnext r⟩

/-- A part before the registration. -/
theorem along_coded {α : Type} {R : α → Prop} {gid : Text} {env : Env}
    {p : IceProc α} {f : α → IceProc Unit}
    (hp : Within (Coded job.gridJobid) R p) (h : Early job env)
    (hf : ∀ env a, Early job env → R a →
      Along outside (Good cfg job) env (guarded gid (f a))) :
    Along outside (Good cfg job) env (guarded gid (p.bind f)) :=
  along_of_within (isContext_submission gid f)
    (fun _ _ r hc hs _ => early_world hc hs r) (fun _ q hs => hs.good q) hp
    (throws_any p) h hf
    fun _ e _ _ =>
      along_of_startFree (callsOnly_guarded (callsOnly_throw e) gid)

theorem callsOnly_recordStart (j : CreamJob) :
    CallsOnly StartFree (recordStart j) := by
  have hj := SameOwner.refl j.toJobRow
  have hreset : SameOwner j.toJobRow j.resetChangeFlags.toJobRow := hj
  have hquiet : Within (Quiet j.toJobRow) (fun _ => True) (recordStart j) := by
    unfold recordStart
    simp only [bind_eq, pure_eq]
    refine within_bind (within_updateJob hj) fun _ _ => ?_
    refine within_bind (within_logEvent hreset _ _ _) fun j' _ => ?_
    refine within_bind (within_ask trivial) fun t _ => ?_
    exact within_bind (within_updateJob hj) fun _ _ => trivial
  exact callsOnly_startFree hquiet

/-- If all goes well from here, it does so from the statistics and from the
start, and afterwards the job does not wait any more. -/
theorem along_startJob {j : CreamJob} {toStart : ToStart} {gid : Text}
    {env : Env}
    (h : Good cfg job env
      (guarded gid ((startJob cfg j toStart).bind afterTry))) :
    Along outside (Good cfg job) env
      (guarded gid ((startJob cfg j toStart).bind afterTry)) := by
  unfold startJob at h ⊢
  simp only [bind_eq, pure_eq, bind_bind] at h ⊢
  refine along_ask h fun _ => along_ask ?_ fun r => ?_
  · exact fun row hw => (h row ⟨hw.started, hw.entry, hw.status⟩ () rfl).2
  · refine along_of_startFree (callsOnly_guarded ?_ gid)
    refine callsOnly_bind ?_ callsOnly_afterTry
    split
    · trivial
    split
    · trivial
    · exact callsOnly_bind (callsOnly_perform fun _ _ _ h => nomatch h)
        fun _ => callsOnly_recordStart _

variable (lib)

theorem along_tryToSubmit {j : CreamJob} {env : Env} (laps : ℕ)
    (hne : job.creamAddress ≠ []) (hj : Bare job j) (h : Early job env) :
    Along outside (Good cfg job) env
      (guarded job.gridJobid
        ((tryToSubmit lib cfg laps false j).bind afterTry)) := by
  unfold tryToSubmit
  simp only [bind_eq, pure_eq, Bool.false_eq_true, if_false, bind_bind]
  refine along_ask (h.good _) fun t => ?_
  have h₀ : Early job (world env .time t).2 := h
  split
  · exact along_of_startFree (callsOnly_guarded (callsOnly_afterTry _) _)
  simp only [bind_bind]
  refine along_coded (within_logEvent_bare hj _) h₀ fun env₁ j₁ h₁ hj₁ => ?_
  refine along_coded (within_logEvent_bare hj₁ _) h₁ fun env₂ j₂ h₂ hj₂ => ?_
  refine along_coded (within_coded
    (within_attempt (within_registerLoop lib cfg j₂ laps {})) _) h₂
    fun env₃ r h₃ _ => ?_
  cases r with
  | error e =>
      exact along_of_startFree (callsOnly_guarded (callsOnly_afterTry _) _)
  | ok r =>
      obtain ⟨delegation, registered⟩ := r
      dsimp only
      simp only [bind_bind]
      refine along_ask (h₃.good _) fun _ => ?_
      rw [updateJob_registeredJob hj₂.changed]
      refine along_ask (Early.good h₃ _) fun _ => ?_
      obtain ⟨row, hrow, hcreated⟩ := h₃
      refine along_startJob
        (good_startJob hj₂ hne hcreated delegation registered ?_)
      have hid := (sameOwner_registeredJob cfg (SameOwner.refl j₂.toJobRow)
        delegation registered).gridJobid.trans hj₂.gridJobid
      have hget := Db.job?_updateJob env₃.db
        (registeredJob cfg j₂ delegation registered) []
      rw [hid, hrow] at hget
      exact hget

theorem submit_eq (laps : ℕ) (onlyStart : Bool) (j : CreamJob) :
    submit lib cfg laps onlyStart j =
      (createEntry lib cfg onlyStart j).bind fun j =>
        (tryToSubmit lib cfg laps onlyStart j).bind afterTry := rfl

/-- The entry does not say `REGISTERED`. -/
def Unregistered (gid : Text) (env : Env) : Prop :=
  ∀ r, env.db.job? gid = some r → r.status ≠ .registered

theorem Unregistered.good {env : Env} (h : Unregistered job.gridJobid env)
    (p : IceProc Unit) : Good cfg job env p :=
  fun r hw => absurd hw.status (h r hw.entry)

theorem along_submit {env : Env} (laps : ℕ) (hnew : NewJob job)
    (h : Unregistered job.gridJobid env) :
    Along outside (Good cfg job) env
      (guarded job.gridJobid (submit lib cfg laps false job)) := by
  rw [submit_eq]
  unfold createEntry
  simp only [bind_eq, pure_eq, Bool.false_eq_true, if_false, bind_bind]
  refine along_ask (h.good _) fun _ => ?_
  have hearly : Early job { env with db := env.db.createJob job.toJobRow } :=
    ⟨job.toJobRow, Db.job?_createJob env.db job.toJobRow,
      hnew.status, rfl, rfl, rfl⟩
  refine along_coded (within_coded (within_saveProxy lib cfg _) _) hearly
    fun env₁ _ h₁ _ => ?_
  exact along_tryToSubmit lib laps hnew.creamAddress ⟨rfl, rfl, rfl⟩ h₁

theorem along_execute {env : Env} (laps : ℕ) (hnew : NewJob job)
    (h : Unregistered job.gridJobid env) :
    Along outside (Good cfg job) env (execute lib cfg laps job) := by
  refine ⟨h.good _, fun _ _ => ?_⟩
  show Along outside (Good cfg job) { env with db := env.db }
    (scopeGuard purgeRequest
      (resume lib cfg laps job (env.db.job? job.gridJobid)))
  cases hentry : env.db.job? job.gridJobid with
  | none => exact along_submit lib laps hnew h
  | some row =>
      have hover : Along outside (Good cfg job) { env with db := env.db }
          (scopeGuard purgeRequest (ret ())) :=
        along_of_startFree callsOnly_purgeRequest
      unfold resume
      simp only [Option.map_some]
      cases hst : row.status with
      | unknown =>
          refine ⟨h.good _, fun _ _ => ?_⟩
          refine along_submit lib laps hnew fun r hr => ?_
          have hgone : (env.db.removeJob job.gridJobid).job? job.gridJobid =
            some r := hr
          rw [Db.job?_removeJob] at hgone
          cases hgone
      | registered => exact absurd hst (h row hentry)
      | _ => exact hover

/-! ## All along a resumption -/

theorem wp_resumed {env : Env} {r : JobRow} (laps : ℕ)
    (hw : Waiting job.gridJobid env r) :
    wp answered
      (fun env _ => env.started ≠ [] →
        Recorded cfg job.gridJobid job (readBack (some r)) r env)
      (fun env _ => env.started ≠ [] →
        Recorded cfg job.gridJobid job (readBack (some r)) r env)
      env (execute lib cfg laps job) := by
  refine fun _ _ => ⟨trivial, ?_⟩
  have hresume : resume lib cfg laps job (env.db.job? job.gridJobid) =
      submitGuarded lib cfg laps true job := by
    rw [hw.entry]
    unfold resume
    simp only [Option.map_some, hw.status]
  show wp answered _ _ { env with db := env.db }
    (scopeGuard purgeRequest
      (resume lib cfg laps job (env.db.job? job.gridJobid)))
  rw [hresume]
  refine wp_guarded (fun env hs hne => absurd hs hne) (fun env b h => h) ?_
  unfold tryToSubmit
  simp only [bind_eq, pure_eq, if_true]
  refine wp_ask fun t _ => ⟨trivial, ?_⟩
  split
  · exact Or.inr hw.started
  · refine wp_execDb trivial ?_
    have hread : (env.db.run (.getJobByGid job.gridJobid)).1 = some r :=
      hw.entry
    show wp answered _ _ { env with db := env.db }
      (startJob cfg job
        (readBack (env.db.run (.getJobByGid job.gridJobid)).1))
    rw [hread]
    refine wp_mono (fun env₁ out h => ?_) (fun env₁ e h => ?_)
      (wp_startJob_waiting cfg rfl ⟨hw.started, hw.entry, hw.status⟩)
    · exact h.imp_left fun h => ⟨h.1, fun _ => h.2⟩
    · exact h.imp_left fun h => ⟨h.1, fun _ => h.2⟩

end

/-- What the two continuations have written is the same exactly if the entry
can be resumed. -/
theorem sameRecord_iff {cfg : Config} {job : CreamJob} {gid : Text}
    {r row₁ row₂ : JobRow} {env : Env} (hnew : NewJob job)
    (hreg : Registration cfg job.toJobRow r) (hst : r.status = .registered)
    (h₁ : SameRecord { r with status := .idle } row₁)
    (h₂ : Recorded cfg gid job (readBack (some r)) r env)
    (hrow₂ : env.db.job? gid = some row₂) :
    SameRecord row₁ row₂ ↔ Resumable r := by
  have htoken : (startedJob cfg job (readBack (some r))).writtenToken =
      CreamJob.tokenFileOf r.tokenFile := by
    rw [hreg.tokenFile]
    simp [CreamJob.writtenToken, startedJob, CreamJob.setCreamJobid,
      CreamJob.setStatus, CreamJob.setWnSequenceCode, CreamJob.setCreamDbid,
      CreamJob.touch, hnew.changed]
  rcases h₂ with ⟨token, code, hwritten, hrow⟩ | ⟨hnone, hrow⟩
  · have h := (written_resumed cfg (readBack (some r)) hnew.changed token
      r).trans (sameRecord_rewritten _ token code r)
    rw [htoken] at hwritten
    rw [Option.some.inj (hrow.symm.trans hrow₂)] at h
    constructor
    · intro hsame
      have hall := h₁.trans (hsame.trans h.symm)
      have hid : r.creamJobid ≠ [] := by
        intro hid
        have hcomplete := hall.completeCreamJobid
        simp only [readBack, hid, List.isEmpty_nil, Bool.true_or, if_true,
          hnew.completeCreamJobid] at hcomplete
        exact hreg.ne_nil hcomplete
      refine ⟨hall.delegationId.trans hnew.delegationId, ?_, ?_, hid⟩
      · exact (strtoull_ofNat_mod r.creamDbid).mp hall.creamDbid.symm
      · rw [hwritten]
        exact congrArg some hall.tokenFile.symm
    · rintro ⟨hdelegation, hdbid, htok, hid⟩
      have htoken' : token = r.tokenFile :=
        Option.some.inj (hwritten.symm.trans htok)
      refine h₁.symm.trans (SameRecord.trans ?_ h)
      refine ⟨rfl, ?_, hdelegation.trans hnew.delegationId.symm,
        hreg.leaseId.trans hnew.leaseId.symm, ?_, htoken'.symm, rfl,
        hreg.jdl, hreg.modifiedJdl⟩
      · show r.completeCreamJobid =
          if r.creamJobid.isEmpty || job.creamAddress.isEmpty then
            job.completeCreamJobid
          else CreamJob.completeId cfg job.creamAddress r.creamJobid
        rw [hreg.completeCreamJobid hid]
        simp [hid, hnew.creamAddress]
      · exact ((strtoull_ofNat_mod r.creamDbid).mpr hdbid).symm
  · rw [htoken] at hnone
    constructor
    · intro hsame
      have hidle := h₁.status.trans hsame.status
      rw [← Option.some.inj (hrow.symm.trans hrow₂), hst] at hidle
      cases hidle
    · intro hres
      have htok := hres.2.2.1
      rw [hnone] at htok
      cases htok

/-! ## The two continuations -/

/-- No answer to a start that was carried out is lost. -/
def Certain (s : State) : Label → Prop
  | .step ans =>
      match s.running with
      | some (.call c _) => isLost s.env c (ans c) = false
      | _ => True
  | _ => True

section

variable {lib : Libraries} {cfg : Config} {job : CreamJob}

theorem certain_call {s : State} {ans : (c : Call) → Answer c} {c : Call}
    {k : Answer c → IceProc Unit} (hs : s.running = some (.call c k))
    (h : Certain s (.step ans)) : isLost s.env c (ans c) = false := by
  simpa [Certain, hs] using h

/-- What the program keeps at every call holds after any number of steps. -/
theorem running_of_steps {J : Env → IceProc Unit → Prop}
    {ok : State → Label → Prop}
    (hJ : ∀ s ans c k, s.running = some (.call c k) → ok s (.step ans) →
      J s.env (.call c k) →
        J (world s.env c (ans c)).2 (k (world s.env c (ans c)).1))
    {s s' : State} {p : IceProc Unit} (hp : s.running = some p)
    (h : J s.env p) {answers : List ((c : Call) → Answer c)}
    (hok : Meets (next lib cfg job) ok s (answers.map .step))
    (hrun : run (next lib cfg job) s (answers.map .step) = some s') :
    ∃ p', s'.running = some p' ∧ J s'.env p' := by
  have hmeets : Meets (next lib cfg job)
      (fun s l => ok s l ∧ ∃ ans, l = .step ans) s (answers.map .step) := by
    intro q hmem
    refine ⟨hok q hmem, ?_⟩
    obtain ⟨ans, -, hans⟩ := List.mem_map.mp (label_mem_of_steps hmem)
    exact ⟨ans, hans.symm⟩
  refine run_invariant (I := fun s => ∃ p, s.running = some p ∧ J s.env p) ?_
    ⟨p, hp, h⟩ hmeets hrun
  rintro t l t' ⟨q, hq, hJq⟩ ⟨hokt, ans, rfl⟩ hnext
  cases q with
  | ret a => simp [next, hq] at hnext
  | throw e => simp [next, hq] at hnext
  | call c k =>
      simp only [next, hq, Option.some.injEq] at hnext
      subst hnext
      exact ⟨_, rfl, hJ t ans c k hq hokt hJq⟩

/-- A command that is run to its end. -/
theorem post_of_finished {Post : Env → Prop} {s s' : State}
    {p : IceProc Unit} (hp : s.running = some p)
    (h : wp answered (fun env _ => Post env) (fun env _ => Post env) s.env p)
    {answers : List ((c : Call) → Answer c)}
    (hcertain : Meets (next lib cfg job) Certain s (answers.map .step))
    (hrun : run (next lib cfg job) s (answers.map .step ++ [.finish]) =
      some s') : Post s'.env := by
  rw [run_append] at hrun
  obtain ⟨t, ht, hfinish⟩ := Option.bind_eq_some_iff.mp hrun
  obtain ⟨q, hq, hwp⟩ := running_of_steps
    (J := fun env p => wp answered (fun env _ => Post env)
      (fun env _ => Post env) env p)
    (fun s ans c k hs hok h => (h (ans c) (certain_call hs hok)).2)
    hp h hcertain ht
  cases q with
  | call c k => simp [run, next, hq] at hfinish
  | ret a =>
      simp only [run, next, hq, Option.some.injEq] at hfinish
      exact hfinish ▸ hwp
  | throw e =>
      cases e with
      | unfinished => simp [run, next, hq] at hfinish
      | _ =>
          simp only [run, next, hq, Option.some.injEq] at hfinish
          exact hfinish ▸ hwp

theorem run_dispatch {s s' : State} {t : ℤ} {laps : ℕ} {ls : List Label}
    (h : run (next lib cfg job) s (.dispatch t laps :: ls) = some s') :
    ∃ s₀, s₀.env = s.env ∧
      s₀.running = some (execute lib cfg laps (job.setIsbproxyTimeEnd t)) ∧
      run (next lib cfg job) s₀ ls = some s' := by
  simp only [run, next] at h
  split at h
  · cases h
  · rename_i s₀ hs₀
    split at hs₀
    · cases hs₀
      refine ⟨_, ?_, ?_, h⟩
      · rfl
      · rfl
    · cases hs₀

/-- ICE is stopped, is back and reads the request again. -/
theorem again_of_stop {s s' : State} {t : ℤ} {laps : ℕ}
    (h : run (next lib cfg job) s [.crash, .restart, .dispatch t laps] =
      some s') :
    s'.env = s.env ∧
      s'.running =
        some (execute lib cfg laps (job.setIsbproxyTimeEnd t)) := by
  cases hup : s.up with
  | false => simp [run, next, hup] at h
  | true =>
      have hback : run (next lib cfg job)
          { s with up := true, running := none } [.dispatch t laps] =
          some s' := by
        simpa [run, next, hup] using h
      obtain ⟨s₀, henv, hrunning, hs₀⟩ := run_dispatch hback
      cases hs₀
      exact ⟨henv, hrunning⟩

/-- ICE stops while the job waits to be started. The entry is afterwards the
one of an uninterrupted submission exactly if it can be resumed. -/
theorem sameRecord_resumed_iff {jdl userDn : Text} {t t₁ t₂ : ℤ} {db : Db}
    {laps₁ laps₂ : ℕ} {answers₀ answers₁ answers₂ : List ((c : Call) → Answer c)}
    {s s' s₁ s₂ : State} {r : JobRow}
    (hjob : CreamJob.ofRequest lib cfg jdl userDn t = .ok job)
    (hdb : ∀ r, db.job? job.gridJobid = some r → r.status ≠ .registered)
    (hbefore : run (next lib cfg job) (init db)
      (.dispatch t₁ laps₁ :: answers₀.map .step) = some s)
    (hwaiting : Waiting job.gridJobid s.env r)
    (h₁ : run (next lib cfg job) s (answers₁.map .step ++ [.finish]) = some s₁)
    (hcertain₁ : Meets (next lib cfg job) Certain s (answers₁.map .step))
    (hstarted₁ : s₁.env.started ≠ [])
    (hstop : run (next lib cfg job) s [.crash, .restart, .dispatch t₂ laps₂] =
      some s')
    (h₂ : run (next lib cfg job) s' (answers₂.map .step ++ [.finish]) =
      some s₂)
    (hcertain₂ : Meets (next lib cfg job) Certain s' (answers₂.map .step))
    (hstarted₂ : s₂.env.started ≠ []) :
    ∃ r₁ r₂, s₁.env.db.job? job.gridJobid = some r₁ ∧
      s₂.env.db.job? job.gridJobid = some r₂ ∧
      (SameRecord r₁ r₂ ↔ Resumable r) := by
  have hnew := newJob_ofRequest hjob
  obtain ⟨s₀, henv, hrunning, hrest⟩ := run_dispatch hbefore
  have hstart : Along outside (Good cfg (job.setIsbproxyTimeEnd t₁)) s₀.env
      (execute lib cfg laps₁ (job.setIsbproxyTimeEnd t₁)) := by
    rw [henv]
    exact along_execute lib laps₁ (hnew.setIsbproxyTimeEnd t₁) hdb
  obtain ⟨p, hp, hgood⟩ := running_of_steps
    (J := Along outside (Good cfg (job.setIsbproxyTimeEnd t₁)))
    (fun _ ans _ _ _ _ h => h.2 (ans _) trivial) hrunning hstart
    (meets_true _ _ _) hrest
  have hended := post_of_finished hp (along_self hgood r hwaiting) hcertain₁ h₁
  obtain ⟨hreg, r₁, hr₁, hsame₁⟩ := hended hstarted₁
  obtain ⟨henv', hrunning'⟩ := again_of_stop hstop
  have hwaiting' : Waiting (job.setIsbproxyTimeEnd t₂).gridJobid s'.env r := by
    rw [henv']
    exact hwaiting
  have hrecorded := post_of_finished hrunning'
    (wp_resumed lib laps₂ hwaiting') hcertain₂ h₂ hstarted₂
  have hreg' : Registration cfg (job.setIsbproxyTimeEnd t₂).toJobRow r :=
    ⟨hreg.tokenFile, hreg.jdl, hreg.modifiedJdl, hreg.leaseId, hreg.ne_nil,
      hreg.completeCreamJobid⟩
  have hrow₂ : ∃ r₂, s₂.env.db.job? job.gridJobid = some r₂ := by
    rcases hrecorded with ⟨token, code, -, hrow⟩ | ⟨-, hrow⟩
    · exact ⟨_, hrow⟩
    · exact ⟨_, hrow⟩
  obtain ⟨r₂, hr₂⟩ := hrow₂
  exact ⟨r₁, r₂, hr₁, hr₂, sameRecord_iff (hnew.setIsbproxyTimeEnd t₂) hreg'
    hwaiting.status hsame₁ hrecorded hr₂⟩

end

/-- A JDL that has what it needs. -/
def plainAd : JobAd where
  ceId := some ['h', ':', '1']
  reallyRunningToken := some ['/', 't']
  shallowRetryCount := none
  x509UserProxy := some ['p']
  myProxyServer := none
  lbSequenceCode := some ['0']
  edgJobid := some ['g']

def parsing : Libraries :=
  { plainLibraries with
    parseClassAd := fun _ => some plainAd
    parseCEID := fun _ => .ok (['h'], ['1']) }

/-- The job of the request. -/
def requestJob : CreamJob :=
  (CreamJob.ofRequest parsing plainConfig ['j'] ['u'] 10).toOption.getD {}

theorem ofRequest_plain :
    CreamJob.ofRequest parsing plainConfig ['j'] ['u'] 10 = .ok requestJob :=
  rfl

/-- So many calls, all of them answered obligingly. -/
def obligingSteps (n : ℕ) : List Label := (List.replicate n obliging).map .step

theorem certain_obligingSteps (s : State) (n : ℕ) :
    Meets (next parsing plainConfig requestJob) Certain s (obligingSteps n) := by
  intro q hq
  obtain ⟨ans, hans, hlabel⟩ := List.mem_map.mp (label_mem_of_steps hq)
  rw [← hlabel, List.eq_of_mem_replicate hans]
  simp only [Certain]
  split
  · exact isLost_obliging _ _
  · trivial

/-- What is compared of the two continuations. -/
def summary (s : State) : List Text × Option Text :=
  (s.env.started,
    (s.env.db.job? requestJob.gridJobid).map JobRow.delegationId)

/-- The submission is registered after 19 calls and started by the 21st. -/
private theorem two_continuations :
    ∃ s r s₁ s' s₂,
      run (next parsing plainConfig requestJob) (init {})
        (.dispatch 10 1 :: obligingSteps 20) = some s ∧
      Waiting requestJob.gridJobid s.env r ∧
      run (next parsing plainConfig requestJob) s (obligingSteps 8 ++ [.finish]) =
        some s₁ ∧
      summary s₁ = ([['C']], some ['i']) ∧
      run (next parsing plainConfig requestJob) s
        [.crash, .restart, .dispatch 10 1] = some s' ∧
      run (next parsing plainConfig requestJob) s'
        (obligingSteps 12 ++ [.finish]) = some s₂ ∧
      summary s₂ = ([['C']], some []) := by
  have hbefore : (run (next parsing plainConfig requestJob) (init {})
      (.dispatch 10 1 :: obligingSteps 20)).map (fun s =>
        (s.env.started,
          (s.env.db.job? requestJob.gridJobid).map JobRow.status)) =
      some ([], some .registered) := by decide
  have hfirst : (run (next parsing plainConfig requestJob) (init {})
      ((.dispatch 10 1 :: obligingSteps 20) ++ (obligingSteps 8 ++ [.finish]))).map
        summary = some ([['C']], some ['i']) := by decide
  have hsecond : (run (next parsing plainConfig requestJob) (init {})
      ((.dispatch 10 1 :: obligingSteps 20) ++
        ([.crash, .restart, .dispatch 10 1] ++
          (obligingSteps 12 ++ [.finish])))).map summary =
      some ([['C']], some []) := by decide
  obtain ⟨s, hs, h⟩ := Option.map_eq_some_iff.mp hbefore
  simp only [Prod.mk.injEq] at h
  obtain ⟨hstarted, hentry⟩ := h
  obtain ⟨r, hr, hstatus⟩ := Option.map_eq_some_iff.mp hentry
  rw [run_append, hs] at hfirst hsecond
  obtain ⟨s₁, hs₁, hsummary₁⟩ := Option.map_eq_some_iff.mp hfirst
  obtain ⟨s₂, hs₂, hsummary₂⟩ := Option.map_eq_some_iff.mp hsecond
  rw [Option.bind_some, run_append] at hs₂
  obtain ⟨s', hs', hs₂⟩ := Option.bind_eq_some_iff.mp hs₂
  exact ⟨s, r, s₁, s', s₂, hs, ⟨hstarted, hr, hstatus⟩, hs₁, hsummary₁, hs',
    hs₂, hsummary₂⟩

private theorem started_of_summary {s : State} {id : Option Text}
    (h : summary s = ([['C']], id)) : s.env.started ≠ [] := by
  rw [show s.env.started = [['C']] from congrArg Prod.fst h]
  exact List.cons_ne_nil _ _

private theorem unregistered_empty (r : JobRow)
    (h : ({} : Db).job? requestJob.gridJobid = some r) :
    r.status ≠ .registered := by
  cases h

/-- The theorem at such a submission. -/
theorem sameRecord_resumed_iff_request :
    ∃ r r₁ r₂, r.status = .registered ∧ (SameRecord r₁ r₂ ↔ Resumable r) := by
  obtain ⟨s, r, s₁, s', s₂, hs, hw, hs₁, hsum₁, hs', hs₂, hsum₂⟩ :=
    two_continuations
  obtain ⟨r₁, r₂, -, -, hiff⟩ := sameRecord_resumed_iff ofRequest_plain
    unregistered_empty hs hw hs₁ (certain_obligingSteps s 8)
    (started_of_summary hsum₁) hs' hs₂ (certain_obligingSteps s' 12)
    (started_of_summary hsum₂)
  exact ⟨r, r₁, r₂, hw.status, hiff⟩

/-- The resumed submission loses the identifier of the delegation. -/
theorem not_sameRecord_resumed :
    ¬ ∀ (answers₀ answers₁ answers₂ : List ((c : Call) → Answer c))
        (s s' s₁ s₂ : State) (r : JobRow),
      run (next parsing plainConfig requestJob) (init {})
        (.dispatch 10 1 :: answers₀.map .step) = some s →
      Waiting requestJob.gridJobid s.env r →
      run (next parsing plainConfig requestJob) s
        (answers₁.map .step ++ [.finish]) = some s₁ →
      s₁.env.started ≠ [] →
      run (next parsing plainConfig requestJob) s
        [.crash, .restart, .dispatch 10 1] = some s' →
      run (next parsing plainConfig requestJob) s'
        (answers₂.map .step ++ [.finish]) = some s₂ →
      s₂.env.started ≠ [] →
      ∃ r₁ r₂, s₁.env.db.job? requestJob.gridJobid = some r₁ ∧
        s₂.env.db.job? requestJob.gridJobid = some r₂ ∧ SameRecord r₁ r₂ := by
  intro h
  obtain ⟨s, r, s₁, s', s₂, hs, hw, hs₁, hsum₁, hs', hs₂, hsum₂⟩ :=
    two_continuations
  obtain ⟨r₁, r₂, hr₁, hr₂, hsame⟩ := h _ _ _ s s' s₁ s₂ r hs hw hs₁
    (started_of_summary hsum₁) hs' hs₂ (started_of_summary hsum₂)
  have h₁ : some r₁.delegationId = some ['i'] := by
    have := congrArg Prod.snd hsum₁
    simpa [summary, hr₁] using this
  have h₂ : some r₂.delegationId = some [] := by
    have := congrArg Prod.snd hsum₂
    simpa [summary, hr₂] using this
  rw [hsame.delegationId, h₂] at h₁
  cases h₁

end Wms.Ice.Restart
