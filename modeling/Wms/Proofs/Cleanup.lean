import Wms.Ice.Upkeep

/-!
# A job that has come to its end

What is left of a job with a terminal status when ICE is done with it, and what the
workload manager and CREAM have been asked for. The entry of the job is removed
first. The purge looks for it before it does anything, so that CREAM is never asked;
nothing else looks for the entry, and what is logged later is written to no row.
-/

namespace Wms.Ice.Upkeep

open Wms.Lib Wms.Ice Proc

/-! ## The world -/

/-- What stays as it is while a job is looked after. -/
structure Site where
  noResubmit : Bool := false
  proxyTimeEnd : Text → ℤ
  time : ℤ
  queue : Except Text Unit := .ok ()
  isValid : Text → Bool
  tokenExists : Text → Option Bool := fun _ => some true
  existsSubsequentToken : Text → Option Bool := fun _ => some false

/-- The database and all that has been done, in order. -/
structure Env where
  db : Db
  effects : List AnyCall := []

/-- The environment after a call that has an effect. -/
def Env.record (env : Env) (c : AnyCall) : Env :=
  { env with effects := env.effects ++ [c] }

/-- Whether an operation only reads. -/
def isQuery : DbOp → Bool
  | .getJobByGid _ | .getProxyInfoByDN _ | .getProxyInfoByDNMYProxy _ _ => true
  | .getDelegation _ _ _ | .checkDelegationByID _ => true
  | _ => false

/-- What an operation leaves; a reading is no effect. -/
def Env.after (env : Env) (op : DbOp) : Env where
  db := (env.db.run op).2
  effects := if isQuery op then env.effects else env.effects ++ [.inl (.db op)]

/-- `GetJobByCid` takes the first of the rows. -/
def jobByCid? (db : Db) (cid : Text) : Option JobRow :=
  db.jobs.rows.find? fun r => r.completeCreamJobid = cid

/-- A request the queue does not take has not been put. -/
def put (x : Site) (env : Env) (gid sequenceCode : Text) : Env :=
  match x.queue with
  | .ok () => env.record (.inl (.putRequest gid sequenceCode))
  | .error _ => env

/-- The data base, with everything else answered at will. -/
def world (x : Site) (env : Env) : (c : AnyCall) → AnyAnswer c → AnyAnswer c × Env
  | .inl (.db op), _ => ((env.db.run op).1, env.after op)
  | .inl .time, _ => (x.time, env)
  | .inl .noResubmit, _ => (x.noResubmit, env)
  | .inl (.proxyTimeEnd file), _ => (x.proxyTimeEnd file, env)
  | .inl (.putRequest gid sequenceCode), _ => (x.queue, put x env gid sequenceCode)
  | .inl c, r => (r, env.record (.inl c))
  | .inr (.checkGridJobID gid), _ => (!gid.isEmpty && (env.db.job? gid).isSome, env)
  | .inr (.isValid file), _ => (x.isValid file, env)
  | .inr (.getJobByCid cid), _ => (jobByCid? env.db cid, env)
  | .inr (.tokenExists path), _ => (x.tokenExists path, env)
  | .inr (.existsSubsequentToken path), _ => (x.existsSubsequentToken path, env)
  | .inr c, r => (r, env.record (.inr c))

/-- The contract of that world, without conditions. -/
def contract (x : Site) : Contract Env AnyCall AnyAnswer := Contract.free (world x)

/-! ## What is to be done -/

/-- The requests in the input of the workload manager, with their codes. -/
def requests (env : Env) : List (Text × Text) :=
  env.effects.filterMap fun
    | .inl (.putRequest gid code) => some (gid, code)
    | _ => none

/-- The purges CREAM was asked for: service, proxy and job. -/
def purges (env : Env) : List (Text × Text × Text) :=
  env.effects.filterMap fun
    | .inr (.creamPurge url proxy jobId) => some (url, proxy, jobId)
    | _ => none

/-- A count that goes down, and its row with it when it was the last. -/
def decremented (r : ProxyRow) : Option ProxyRow :=
  if r.counter = 1 then none else some { r with counter := r.counter - 1 }

/-- The job has to be given back to the workload manager. -/
def isDue (x : Site) (row : JobRow) : Prop :=
  (row.status = .doneFailed ∨ row.status = .aborted) ∧ row.killedByice = false ∧
    x.noResubmit = false ∧ x.time + 300 < x.proxyTimeEnd row.userProxyfile

instance (x : Site) (row : JobRow) : Decidable (isDue x row) :=
  inferInstanceAs (Decidable (_ ∧ _))

/-- The database when the job has given its count back. -/
def released (db : Db) (row : JobRow) : Db :=
  if row.proxyRenewable then
    match db.proxy? row.userDn row.myproxyAddress with
    | none => db
    | some info =>
        let db := db.setCounter row.userDn row.myproxyAddress (info.counter - 1)
        if info.counter = 1 then
          (db.removeProxy row.userDn row.myproxyAddress).removeDelegationsOf row.userDn
            row.myproxyAddress
        else db
  else db

/-- The proxy a purge of the job is made with. -/
def purgeProxy (db : Db) (row : JobRow) : Text :=
  ((withProxyfile ((released db row).longestProxy? row.userDn)).map
    ProxyRow.proxyfile).getD row.userProxyfile

/-- CREAM has to be asked for a purge. -/
def purgeIsDue (x : Site) (purgeJobs : Bool) (db : Db) (row : JobRow) : Prop :=
  isTerminal row.status ∧ purgeJobs ∧ x.isValid (purgeProxy db row)

instance (x : Site) (purgeJobs : Bool) (db : Db) (row : JobRow) :
    Decidable (purgeIsDue x purgeJobs db row) := inferInstanceAs (Decidable (_ ∧ _))

/-- The job has been cleaned up as its status asks for, and nothing else. -/
structure CleanedUp (x : Site) (purgeJobs : Bool) (row : JobRow) (env env' : Env) :
    Prop where
  gone : env'.db.job? row.gridJobid =
    if isTerminal row.status then none else env.db.job? row.gridJobid
  others : ∀ gid, gid ≠ row.gridJobid → env'.db.job? gid = env.db.job? gid
  counter : env'.db.proxy? row.userDn row.myproxyAddress =
    if isTerminal row.status && row.proxyRenewable then
      (env.db.proxy? row.userDn row.myproxyAddress).bind decremented
    else env.db.proxy? row.userDn row.myproxyAddress
  otherCounters : ∀ dn myproxy, (dn, myproxy) ≠ (row.userDn, row.myproxyAddress) →
    env'.db.proxy? dn myproxy = env.db.proxy? dn myproxy
  resubmitted : ∃ code, requests env' =
    requests env ++ if isDue x row then [(row.gridJobid, code)] else []
  purged : purges env' = purges env ++
    if purgeIsDue x purgeJobs env.db row then
      [(row.creamAddress, purgeProxy env.db row, row.creamJobid)]
    else []

/-! ## What the parts do -/

/-- Neither a request nor a purge has been added. -/
structure Aside (env env' : Env) : Prop where
  requests : requests env' = requests env
  purges : purges env' = purges env

theorem Aside.refl (env : Env) : Aside env env := ⟨rfl, rfl⟩

theorem Aside.trans {env₁ env₂ env₃ : Env} (h : Aside env₁ env₂) (h' : Aside env₂ env₃) :
    Aside env₁ env₃ :=
  ⟨h'.requests.trans h.requests, h'.purges.trans h.purges⟩

/-- Calls that are neither. -/
def isAside : AnyCall → Bool
  | .inl (.putRequest _ _) => false
  | .inr (.creamPurge _ _ _) => false
  | _ => true

theorem aside_record (env : Env) {c : AnyCall} (h : isAside c) : Aside env (env.record c) := by
  constructor
  · unfold requests Env.record
    rw [List.filterMap_append]
    unfold isAside at h
    split at h <;> simp_all
  · unfold purges Env.record
    rw [List.filterMap_append]
    unfold isAside at h
    split at h <;> simp_all

variable {x : Site}

theorem aside_after (env : Env) (op : DbOp) : Aside env (env.after op) := by
  have hrecord : Aside env (if isQuery op then env else env.record (.inl (.db op))) := by
    split
    · exact .refl env
    · exact aside_record env rfl
  unfold Env.after
  split at hrecord
  · rw [if_pos ‹_›]
    exact ⟨hrecord.requests, hrecord.purges⟩
  · rw [if_neg ‹_›]
    exact ⟨hrecord.requests, hrecord.purges⟩

/-- What follows an operation on the database goes on with its result. -/
theorem wp_execDb {α : Type} {Q : Env → α → Prop} {E : Env → Exception → Prop} {env : Env}
    {op : DbOp} {k : op.Result → IceProc α}
    (h : wp (contract x).left Q E (env.after op) (k (env.db.run op).1)) :
    wp (contract x).left Q E env ((execDb op).bind k) := fun _ _ => ⟨trivial, h⟩

/-- A state with the same database and nothing added to it that is counted. -/
structure Same (env env' : Env) : Prop extends Aside env env' where
  db : env'.db = env.db

theorem Same.refl (env : Env) : Same env env := ⟨.refl env, rfl⟩

theorem Same.trans {env₁ env₂ env₃ : Env} (h : Same env₁ env₂) (h' : Same env₂ env₃) :
    Same env₁ env₃ :=
  ⟨h.toAside.trans h'.toAside, h'.db.trans h.db⟩

theorem updateJob_gone {db : Db} {j : CreamJob} (h : db.job? j.gridJobid = none)
    (token : Text) : db.updateJob j token = db := by
  unfold Db.updateJob
  rw [Table.modify_of_find?_eq_none h]

/-- A job that has left the table, as it is handed on from one event to the next. -/
structure Gone (row : JobRow) (env : Env) (j : CreamJob) : Prop where
  gid : j.gridJobid = row.gridJobid
  token : j.changed .tokenFile = false
  entry : env.db.job? row.gridJobid = none

variable {row : JobRow}

theorem Gone.after {env env' : Env} {j : CreamJob} (h : Gone row env j) (hs : Same env env') :
    Gone row env' j :=
  ⟨h.gid, h.token, by rw [hs.db]; exact h.entry⟩

theorem Gone.withReason {env : Env} {j : CreamJob} (h : Gone row env j) (reason : Text) :
    Gone row env (j.setFailureReason reason) := by
  refine ⟨h.gid, ?_, h.entry⟩
  simpa [CreamJob.setFailureReason, CreamJob.touch] using h.token

theorem wp_updateJob {env : Env} {j : CreamJob} (h : Gone row env j) :
    wp (contract x).left (fun env' _ => Same env env') (fun _ _ => False) env
      (updateJob j) := by
  unfold updateJob CreamJob.writtenToken
  rw [h.token]
  intro r _
  refine ⟨trivial, aside_after env _, updateJob_gone ?_ []⟩
  rw [h.gid]
  exact h.entry

theorem gone_withSeqCode {env : Env} {j : CreamJob} (h : Gone row env j)
    (useCancel : Bool) (code : Text) : Gone row env (withSeqCode j useCancel code) := by
  unfold withSeqCode
  split
  · exact ⟨h.gid, h.token, h.entry⟩
  · exact ⟨h.gid, h.token, h.entry⟩

theorem wp_logEvent {env : Env} {j : CreamJob} (h : Gone row env j) (event : LbEvent)
    (useCancel : Bool) :
    wp (contract x).left (fun env' j' => Same env env' ∧ Gone row env' j')
      (fun _ _ => False) env (logEvent event j useCancel true) := by
  unfold logEvent
  intro code _
  refine ⟨trivial, ?_⟩
  have hlogged : Same env (env.record (.inl (.log event j.toJobRow))) :=
    ⟨aside_record env rfl, rfl⟩
  cases code with
  | none => exact ⟨hlogged, h.after hlogged⟩
  | some code =>
      have hgone := (gone_withSeqCode h useCancel code).after hlogged
      refine (wp_bind _ (updateJob _) _).mpr (wp_mono ?_ (fun _ _ h => h)
        (wp_updateJob hgone))
      intro env' _ hs
      exact ⟨hlogged.trans hs, hgone.gid, rfl, (hgone.after hs).entry⟩

/-! ## The parts of the clean-up -/

theorem wp_ended {α : Type} {Q : Env → α → Prop} {E : Env → Exception → Prop} {env : Env}
    {c : AnyCall} {k : AnyAnswer c → UpkeepProc α}
    (h : ∀ r, wp (contract x) Q E (world x env c r).2 (k (world x env c r).1)) :
    wp (contract x) Q E env (call c k) := fun r _ => ⟨trivial, h r⟩

theorem wp_deregisterIfEnded (env : Env) (j : CreamJob) :
    wp (contract x) (fun env' _ => Same env env') (fun _ _ => False) env
      (deregisterIfEnded j) := by
  unfold deregisterIfEnded
  split
  · exact wp_ended fun r => ⟨aside_record env rfl, rfl⟩
  · exact .refl env

theorem wp_decrementUserProxyCounter (env : Env) (row : JobRow) (h : row.proxyRenewable) :
    wp (contract x).left
      (fun env' _ => Aside env env' ∧ env'.db = released env.db row) (fun _ _ => False) env
      (decrementUserProxyCounter row.userDn row.myproxyAddress) := by
  unfold decrementUserProxyCounter released
  rw [if_pos h]
  refine wp_execDb ?_
  have hask := aside_after env (.getProxyInfoByDNMYProxy row.userDn row.myproxyAddress)
  dsimp only [Db.run]
  cases env.db.proxy? row.userDn row.myproxyAddress with
  | none => exact ⟨hask, rfl⟩
  | some info =>
      refine wp_execDb ?_
      have hset := hask.trans (aside_after _ (.updateProxyCounterByDN row.userDn
        row.myproxyAddress (info.counter - 1)))
      by_cases hlast : info.counter = 1
      · simp only [if_pos hlast]
        refine wp_execDb ?_
        refine wp_execDb ?_
        exact ⟨(hset.trans (aside_after _ _)).trans (aside_after _ _), rfl⟩
      · simp only [if_neg hlast]
        exact ⟨hset, rfl⟩

theorem wp_releaseProxy (env : Env) (row : JobRow) :
    wp (contract x).left
      (fun env' _ => Aside env env' ∧ env'.db = released env.db row) (fun _ _ => False) env
      (releaseProxy row.toCreamJob) := by
  unfold releaseProxy
  by_cases h : row.proxyRenewable
  · rw [if_pos (show row.toCreamJob.proxyRenewable = true from h)]
    exact (wp_bind _ _ _).mpr (wp_decrementUserProxyCounter env row h)
  · rw [if_neg (show ¬ row.toCreamJob.proxyRenewable = true from h)]
    refine ⟨.refl env, ?_⟩
    rw [released, if_neg h]

/-- The database a job with a terminal status has left. -/
def withoutJob (db : Db) (row : JobRow) : Db :=
  (released db row).removeJob row.gridJobid

theorem wp_removeIfTerminal (env : Env) (row : JobRow) :
    wp (contract x)
      (fun env' _ => Aside env env' ∧
        env'.db = if isTerminal row.status then withoutJob env.db row else env.db)
      (fun _ _ => False) env (removeIfTerminal row.toCreamJob) := by
  unfold removeIfTerminal
  by_cases h : isTerminal row.status
  · rw [if_pos (show isTerminal row.toCreamJob.status = true from h), if_pos h]
    refine (wp_bind _ (ice _) _).mpr ((wp_lift _ _).mpr ?_)
    refine wp_mono ?_ (fun _ _ h => h) (wp_releaseProxy env row)
    rintro env' _ ⟨haside, hdb⟩
    refine (wp_lift _ (execDb _)).mpr fun _ _ => ⟨trivial, ?_⟩
    refine ⟨haside.trans (aside_after env' _), ?_⟩
    show (env'.db.run _).2 = _
    rw [hdb]
    rfl
  · rw [if_neg (show ¬ isTerminal row.toCreamJob.status = true from h), if_neg h]
    exact ⟨.refl env, rfl⟩

/-- At most a request more: the one that was due, where the queue takes it. -/
structure Asked (x : Site) (row : JobRow) (env env' : Env) : Prop where
  purges : purges env' = purges env
  requests : ∃ code, requests env' = requests env ++
    if isDue x row ∧ x.queue = .ok () then [(row.gridJobid, code)] else []

theorem Aside.asked {env env' : Env} (h : Aside env env') (hnot : ¬ isDue x row) :
    Asked x row env env' := by
  refine ⟨h.purges, [], ?_⟩
  rw [if_neg fun hdue => hnot hdue.1, List.append_nil, h.requests]

theorem Asked.after {env₁ env₂ env₃ : Env} (h : Asked x row env₁ env₂)
    (hs : Aside env₂ env₃) : Asked x row env₁ env₃ := by
  obtain ⟨code, hcode⟩ := h.requests
  exact ⟨hs.purges.trans h.purges, code, hs.requests.trans hcode⟩

theorem Asked.before {env₁ env₂ env₃ : Env} (hs : Aside env₁ env₂)
    (h : Asked x row env₂ env₃) : Asked x row env₁ env₃ := by
  obtain ⟨code, hcode⟩ := h.requests
  refine ⟨h.purges.trans hs.purges, code, ?_⟩
  rw [hcode, hs.requests]

/-- The same database, and the request. -/
structure Requested (x : Site) (row : JobRow) (env env' : Env) : Prop
    extends Asked x row env env' where
  db : env'.db = env.db

theorem Same.requested {env env' : Env} (h : Same env env') (hnot : ¬ isDue x row) :
    Requested x row env env' := ⟨h.asked hnot, h.db⟩

theorem Requested.after {env₁ env₂ env₃ : Env} (h : Requested x row env₁ env₂)
    (hs : Same env₂ env₃) : Requested x row env₁ env₃ :=
  ⟨h.toAsked.after hs.toAside, hs.db.trans h.db⟩

theorem Requested.before {env₁ env₂ env₃ : Env} (hs : Same env₁ env₂)
    (h : Requested x row env₂ env₃) : Requested x row env₁ env₃ :=
  ⟨.before hs.toAside h.toAsked, h.db.trans hs.db⟩

/-- What follows an event of a job that has left goes on in a state that is the same. -/
theorem wp_logged {α : Type} {Q : Env → α → Prop} {env : Env} {j : CreamJob}
    (h : Gone row env j) {event : LbEvent} {useCancel : Bool} {k : CreamJob → IceProc α}
    (hk : ∀ env' j', Same env env' → Gone row env' j' →
      wp (contract x).left Q (fun _ _ => False) env' (k j')) :
    wp (contract x).left Q (fun _ _ => False) env
      ((logEvent event j useCancel true).bind k) :=
  (wp_bind _ _ _).mpr (wp_mono (fun env' j' hlog => hk env' j' hlog.1 hlog.2)
    (fun _ _ h => h) (wp_logEvent h event useCancel))

theorem requested_put {env : Env} {gid code : Text} (hgid : gid = row.gridJobid)
    (hdue : isDue x row) : Requested x row env (put x env gid code) := by
  subst hgid
  unfold put
  cases hqueue : x.queue with
  | ok a =>
      refine ⟨⟨?_, code, ?_⟩, rfl⟩
      · simp [purges, Env.record]
      · rw [if_pos ⟨hdue, hqueue⟩]
        simp [requests, Env.record]
  | error what =>
      refine ⟨⟨rfl, [], ?_⟩, rfl⟩
      rw [if_neg (by rw [hqueue]; simp), List.append_nil]

theorem wp_resubmitJob {env : Env} (h : Gone row env row.toCreamJob)
    (hfailed : row.status = .doneFailed ∨ row.status = .aborted)
    (hkilled : row.killedByice = false) (reason : Text) :
    wp (contract x).left (fun env' _ => Requested x row env env') (fun _ _ => False) env
      (resubmitJob row.toCreamJob reason) := by
  unfold resubmitJob
  refine fun _ _ => ⟨trivial, ?_⟩
  show wp _ _ _ env (if x.noResubmit = true then _ else _)
  by_cases hno : x.noResubmit = true
  · rw [if_pos hno]
    refine (Same.refl env).requested fun hdue => ?_
    rw [hdue.2.2.1] at hno
    cases hno
  rw [if_neg hno]
  refine fun _ _ => ⟨trivial, fun _ _ => ⟨trivial, ?_⟩⟩
  show wp _ _ _ env (if x.proxyTimeEnd row.userProxyfile ≤ x.time + 300 then _ else _)
  by_cases hends : x.proxyTimeEnd row.userProxyfile ≤ x.time + 300
  · rw [if_pos hends]
    exact wp_logged h fun env' j' hsame _ =>
      hsame.requested fun hdue => absurd hdue.2.2.2 (by omega)
  rw [if_neg hends]
  have hdue : isDue x row := ⟨hfailed, hkilled, by simpa using hno, by omega⟩
  refine wp_logged h fun env₁ j₁ hs₁ h₁ => ?_
  refine wp_logged h₁ fun env₂ j₂ hs₂ h₂ => ?_
  refine fun _ _ => ⟨trivial, ?_⟩
  have hput : Requested x row env (put x env₂ j₂.gridJobid j₂.sequenceCode) :=
    .before (hs₁.trans hs₂) (requested_put h₂.gid hdue)
  have hleft : Gone row (put x env₂ j₂.gridJobid j₂.sequenceCode) j₂ := by
    refine ⟨h₂.gid, h₂.token, ?_⟩
    rw [hput.db]
    exact h.entry
  change wp _ _ _ (put x env₂ j₂.gridJobid j₂.sequenceCode) ((ret x.queue).bind _)
  generalize put x env₂ j₂.gridJobid j₂.sequenceCode = env' at hput hleft
  cases x.queue with
  | ok a => exact wp_logged hleft fun env₃ j₃ hs₃ _ => hput.after hs₃
  | error what =>
      refine wp_logged hleft fun env₃ j₃ hs₃ _ => ?_
      refine wp_logged ((hleft.after hs₃).withReason _) fun env₄ j₄ hs₄ _ => ?_
      exact (hput.after hs₃).after hs₄

theorem resubmits_iff (row : JobRow) :
    ((row.status = .doneFailed || row.status = .aborted) && !row.killedByice) = true ↔
      (row.status = .doneFailed ∨ row.status = .aborted) ∧ row.killedByice = false := by
  simp

theorem wp_resubmitIfFailed {env : Env} {row : JobRow}
    (hgone : isTerminal row.status → env.db.job? row.gridJobid = none) :
    wp (contract x) (fun env' _ => Requested x row env env') (fun _ _ => False) env
      (resubmitIfFailed row.toCreamJob) := by
  unfold resubmitIfFailed
  split
  · rename_i h
    obtain ⟨hfailed, hkilled⟩ := (resubmits_iff row).mp h
    have hterminal : isTerminal row.status := by
      rcases hfailed with hst | hst <;> rw [hst] <;> rfl
    exact (wp_lift _ _).mpr
      (wp_resubmitJob ⟨rfl, rfl, hgone hterminal⟩ hfailed hkilled _)
  · rename_i h
    exact (Same.refl env).requested fun hdue =>
      h ((resubmits_iff row).mpr ⟨hdue.1, hdue.2.1⟩)

/-- The purge does not find the job it is to purge. -/
theorem wp_purgeJob (purgeJobs : Bool) {env : Env} {j : CreamJob}
    (hgone : env.db.job? j.gridJobid = none) :
    wp (contract x) (fun env' _ => Same env env') (fun _ _ => False) env
      (purgeJob purgeJobs j) := by
  unfold purgeJob
  refine wp_ended fun r => ?_
  show wp _ _ _ env ((ret (!j.gridJobid.isEmpty &&
    (env.db.job? j.gridJobid).isSome)).bind _)
  rw [hgone, Option.isSome_none, Bool.and_false]
  exact Same.refl env

/-- How a state is left by the clean-up of a job. -/
structure Left (x : Site) (row : JobRow) (env env' : Env) : Prop
    extends Asked x row env env' where
  db : env'.db = if isTerminal row.status then withoutJob env.db row else env.db

theorem Left.after {env₁ env₂ env₃ : Env} (h : Left x row env₁ env₂) (hs : Same env₂ env₃) :
    Left x row env₁ env₃ :=
  ⟨h.toAsked.after hs.toAside, hs.db.trans h.db⟩

theorem job?_withoutJob (db : Db) (row : JobRow) :
    (withoutJob db row).job? row.gridJobid = none := Db.job?_removeJob _ _

theorem wp_resubmitOrPurgeJob (purgeJobs : Bool) (env : Env) (row : JobRow) :
    wp (contract x) (fun env' _ => Left x row env env') (fun _ _ => False) env
      (resubmitOrPurgeJob purgeJobs row.toCreamJob) := by
  unfold resubmitOrPurgeJob
  refine (wp_bind _ _ _).mpr (wp_mono ?_ (fun _ _ h => h) (wp_deregisterIfEnded env _))
  intro env₁ _ h₁
  refine (wp_bind _ _ _).mpr (wp_mono ?_ (fun _ _ h => h) (wp_removeIfTerminal env₁ row))
  rintro env₂ _ ⟨haside, hdb⟩
  have hgone : isTerminal row.status → env₂.db.job? row.gridJobid = none := by
    intro h
    rw [hdb, if_pos h]
    exact job?_withoutJob _ _
  refine (wp_bind _ _ _).mpr (wp_mono ?_ (fun _ _ h => h) (wp_resubmitIfFailed hgone))
  intro env₃ _ h₃
  have hleft : Left x row env env₃ := by
    refine ⟨.before (h₁.toAside.trans haside) h₃.toAsked, ?_⟩
    rw [h₃.db, hdb, h₁.db]
  have hpurged : wp (contract x) (fun env' _ => Left x row env env') (fun _ _ => False) env₃
      (purgeIfTerminal purgeJobs row.toCreamJob) := by
    unfold purgeIfTerminal
    split
    · rename_i h
      have hentry : env₃.db.job? row.gridJobid = none := by
        rw [h₃.db]
        exact hgone h
      exact wp_mono (fun _ _ hs => hleft.after hs) (fun _ _ h => h)
        (wp_purgeJob purgeJobs hentry)
    · exact hleft
  refine (wp_bind _ _ _).mpr (wp_mono ?_ (fun _ _ h => h) hpurged)
  intro env₄ _ h₄
  unfold purgeStorageIfCancelled
  split
  · exact wp_ended fun _ => h₄.after ⟨aside_record _ rfl, rfl⟩
  · exact h₄

/-! ## The tables afterwards -/

theorem jobs_released (db : Db) (row : JobRow) : (released db row).jobs = db.jobs := by
  unfold released
  split
  · split
    · rfl
    · dsimp only
      split <;> rfl
  · rfl

theorem proxy?_setCounter (db : Db) (dn myproxy : Text) (n : ℤ) :
    (db.setCounter dn myproxy n).proxy? dn myproxy =
      (db.proxy? dn myproxy).map fun r => { r with counter := n } :=
  db.proxies.find?_modify_self (dn, myproxy) (fun r => { r with counter := n }) fun _ h => h

theorem proxy?_setCounter_ne (db : Db) {dn myproxy dn' myproxy' : Text} (n : ℤ)
    (h : (dn', myproxy') ≠ (dn, myproxy)) :
    (db.setCounter dn myproxy n).proxy? dn' myproxy' = db.proxy? dn' myproxy' :=
  db.proxies.find?_modify_ne (fun r => { r with counter := n }) (fun _ h => h) h

theorem proxy?_released (db : Db) (row : JobRow) (h : row.proxyRenewable) :
    (released db row).proxy? row.userDn row.myproxyAddress =
      (db.proxy? row.userDn row.myproxyAddress).bind decremented := by
  unfold released
  rw [if_pos h]
  cases hinfo : db.proxy? row.userDn row.myproxyAddress with
  | none => exact hinfo
  | some info =>
      by_cases hlast : info.counter = 1
      · simp only [Option.bind_some, decremented, if_pos hlast]
        exact Table.find?_delete_self _ _
      · simp only [Option.bind_some, decremented, if_neg hlast]
        rw [proxy?_setCounter, hinfo, Option.map_some]

theorem proxy?_released_ne (db : Db) (row : JobRow) {dn myproxy : Text}
    (h : (dn, myproxy) ≠ (row.userDn, row.myproxyAddress)) :
    (released db row).proxy? dn myproxy = db.proxy? dn myproxy := by
  unfold released
  split
  · split
    · rfl
    · dsimp only
      split
      · exact (Table.find?_delete_ne _ h).trans (proxy?_setCounter_ne db _ h)
      · exact proxy?_setCounter_ne db _ h
  · rfl

/-! ## The clean-up -/

/-- One call for a row, with what the LB answers. -/
def cleanUp (x : Site) (purgeJobs : Bool) (lb : Oracle AnyCall AnyAnswer) (env : Env)
    (row : JobRow) : Done Env Exception Bool :=
  exec (world x) lb 0 env (resubmitOrPurgeJob purgeJobs row.toCreamJob)

theorem left_cleanUp (x : Site) (purgeJobs : Bool) (lb : Oracle AnyCall AnyAnswer)
    (env : Env) (row : JobRow) : Left x row env (cleanUp x purgeJobs lb env row).state :=
  wp_exec_state (K := contract x) lb (keeps_free _ _ _ _ _)
    (wp_mono (fun _ _ h => h) (fun _ _ h => h.elim) (wp_resubmitOrPurgeJob purgeJobs env row))

theorem counter_left (db : Db) (row : JobRow) :
    (if isTerminal row.status then withoutJob db row else db).proxy? row.userDn
        row.myproxyAddress =
      if isTerminal row.status && row.proxyRenewable then
        (db.proxy? row.userDn row.myproxyAddress).bind decremented
      else db.proxy? row.userDn row.myproxyAddress := by
  cases hterminal : isTerminal row.status with
  | false => rfl
  | true =>
      cases hrenewable : row.proxyRenewable with
      | true => exact proxy?_released db row hrenewable
      | false =>
          show (released db row).proxy? _ _ = _
          rw [released, if_neg (by simp [hrenewable])]
          rfl

/-- A job is cleaned up if the queue takes what is due, and there is no purge to make. -/
theorem cleanedUp_iff (x : Site) (purgeJobs : Bool) (lb : Oracle AnyCall AnyAnswer)
    (env : Env) (row : JobRow) :
    CleanedUp x purgeJobs row env (cleanUp x purgeJobs lb env row).state ↔
      (isDue x row → x.queue = .ok ()) ∧ ¬ purgeIsDue x purgeJobs env.db row := by
  have hleft := left_cleanUp x purgeJobs lb env row
  obtain ⟨code, hcode⟩ := hleft.requests
  constructor
  · intro h
    constructor
    · intro hdue
      obtain ⟨code', hcode'⟩ := h.resubmitted
      rw [hcode, if_pos hdue, List.append_cancel_left_eq] at hcode'
      by_contra hqueue
      rw [if_neg fun h => hqueue h.2] at hcode'
      cases hcode'
    · intro hdue
      have hpurged := h.purged
      rw [hleft.purges, if_pos hdue, List.self_eq_append_right] at hpurged
      cases hpurged
  · rintro ⟨hqueue, hpurge⟩
    refine ⟨?_, ?_, ?_, ?_, ?_, ?_⟩
    · rw [hleft.db]
      split
      · exact job?_withoutJob _ _
      · rfl
    · intro gid hne
      rw [hleft.db]
      split
      · exact (Table.find?_delete_ne _ hne).trans (by rw [jobs_released]; rfl)
      · rfl
    · rw [hleft.db]
      exact counter_left env.db row
    · intro dn myproxy hne
      rw [hleft.db]
      split
      · exact proxy?_released_ne env.db row hne
      · rfl
    · refine ⟨code, ?_⟩
      rw [hcode]
      by_cases hdue : isDue x row
      · rw [if_pos ⟨hdue, hqueue hdue⟩, if_pos hdue]
      · rw [if_neg fun h => hdue h.1, if_neg hdue]
    · rw [if_neg hpurge, List.append_nil, hleft.purges]

/-- An LB that logs nothing; what else is offered is not taken up. -/
def unlogged : (c : AnyCall) → AnyAnswer c
  | .inl (.db op) => (({ } : Db).run op).1
  | .inl .time => (0 : ℤ)
  | .inl (.log _ _) => none
  | .inl (.copyProxy _ _) => true
  | .inl (.computeSha1Digest _) => .ok []
  | .inl .generateDelegationID => []
  | .inl (.creamDelegate _ _ _) => .ok ()
  | .inl (.creamRegister _ _ _ _ _) => .unknown
  | .inl (.creamStart _ _ _) => .result {}
  | .inl .noResubmit => false
  | .inl (.proxyTimeEnd _) => (0 : ℤ)
  | .inl (.putRequest _ _) => .ok ()
  | .inl .removeRequest => true
  | .inr (.log _ _) => none
  | .inr (.deregisterProxy _) => ()
  | .inr (.checkGridJobID _) => false
  | .inr (.isValid _) => false
  | .inr (.creamPurge _ _ _) => ()
  | .inr (.purgeStorage _) => ()
  | .inr (.getJobByCid _) => none
  | .inr (.tokenExists _) => none
  | .inr (.existsSubsequentToken _) => none

/-- Surroundings in which everything is as it should be. -/
def fairSite : Site where
  proxyTimeEnd := fun _ => 5000
  time := 1000
  isValid := fun _ => true

def doneRow : JobRow :=
  { gridJobid := "job".toList, creamJobid := "CREAM1".toList, status := .doneOk
    creamAddress := "ce".toList, userProxyfile := "proxy".toList, userDn := "dn".toList }

theorem not_cleanedUp_done :
    ¬ CleanedUp fairSite true doneRow { db := Db.createJob {} doneRow }
      (cleanUp fairSite true (fun _ => unlogged) { db := Db.createJob {} doneRow }
        doneRow).state := by
  intro h
  have hpurged := h.purged
  revert hpurged
  decide +kernel

end Wms.Ice.Upkeep
